import Rkvc.H264h265.Decoder

/-!
# Runs of the hardware decoder

Whatever the chip answers, and in whatever order its pictures get ready, a decoder that
succeeds has handed over every packet once and passed on every picture once, in order
(`decode_run`). A failure loses no more than the last picture, and leaves
nothing held.
-/

namespace Rkvc.H264h265
set_option autoImplicit false
open Lib Lib.Driver

/-! ## What is seen of the calls -/

/-- What a picture shows, wherever it is kept. -/
structure Exposed where
  spec : Spec
  size : Nat
  corrupt : Bool
  pts : Int
  dts : Int
  deriving DecidableEq, Repr

def DmabufFrame.exposed (f : DmabufFrame) : Exposed where
  spec := f.spec
  size := f.size
  corrupt := f.corrupt
  pts := f.pts
  dts := f.dts

/-- `spec` of `emit_mpp_frame`. -/
def MppFrame.spec (f : MppFrame) : Spec where
  width := f.width
  height := f.height
  fmt := mppToPixel f.format
  domain := .dmabuf
  stride := f.horStride
  verStride := f.verStride

def MppFrame.exposed (f : MppFrame) : Exposed where
  spec := f.spec
  size := (f.buffer.map MppBuffer.size).getD 0
  corrupt := f.errinfo || f.discard
  pts := f.pts
  dts := f.dts

namespace MppCall

/-- A packet that the chip has taken. -/
def accepted : MppCall → Option MppPacket
  | .putPacket packet .ok => some packet
  | _ => none

/-- A picture that has come back. -/
def picture : MppCall → Option Exposed
  | .getFrame (some (some frame)) => if !frame.infoChange && frame.buffer.isSome then some frame.exposed else none
  | _ => none

/-- A picture that the queue behind the node has taken. -/
def shown : MppCall → Option Exposed
  | .emit frame .ok => some frame.exposed
  | _ => none

/-- The end of the stream has come back. -/
def ends : MppCall → Bool
  | .getFrame (some (some frame)) => !frame.infoChange && frame.eos
  | _ => false

def takesPacket : MppCall → Bool
  | .packetInit ok => ok
  | _ => false

def givesPacket : MppCall → Bool
  | .packetDeinit => true
  | _ => false

def takesFrame : MppCall → Bool
  | .getFrame (some (some _)) => true
  | _ => false

def givesFrame : MppCall → Bool
  | .frameDeinit => true
  | _ => false

def takesFd : MppCall → Bool
  | .dup _ owned => 0 ≤ owned
  | _ => false

/-- A descriptor goes with the frame that is emitted, or is closed. -/
def givesFd : MppCall → Bool
  | .emit _ _ => true
  | .closeFd _ => true
  | _ => false

end MppCall

/-- The packets that the chip has taken. -/
def accepted (calls : List MppCall) : List MppPacket := calls.filterMap MppCall.accepted

/-- The pictures that have come back. -/
def pictures (calls : List MppCall) : List Exposed := calls.filterMap MppCall.picture

/-- The pictures that have been passed on. -/
def shown (calls : List MppCall) : List Exposed := calls.filterMap MppCall.shown

/-- Everything that is taken is given back once: packets, frames and descriptors. -/
structure Balanced (calls : List MppCall) : Prop where
  packets : Returns MppCall.takesPacket MppCall.givesPacket calls
  frames : Returns MppCall.takesFrame MppCall.givesFrame calls
  fds : Returns MppCall.takesFd MppCall.givesFd calls

/-- The pictures have been passed on in order; a failure loses one at most. -/
def PassedOn (calls : List MppCall) (done : Prop) : Prop := Relays (pictures calls) (shown calls) done

section Calls

variable {a b : List MppCall} {done : Prop}

@[simp] theorem accepted_append : accepted (a ++ b) = accepted a ++ accepted b := List.filterMap_append

@[simp] theorem pictures_append : pictures (a ++ b) = pictures a ++ pictures b := List.filterMap_append

@[simp] theorem shown_append : shown (a ++ b) = shown a ++ shown b := List.filterMap_append

theorem Balanced.append (first : Balanced a) (rest : Balanced b) : Balanced (a ++ b) where
  packets := first.packets.append rest.packets
  frames := first.frames.append rest.frames
  fds := first.fds.append rest.fds

theorem PassedOn.append (first : PassedOn a True) (rest : PassedOn b done) : PassedOn (a ++ b) done := by
  rw [PassedOn, pictures_append, shown_append]
  exact Relays.append first rest

theorem PassedOn.now (h : PassedOn a done) (is : done) : PassedOn a True := Relays.now h is

theorem PassedOn.of_none (gets : pictures a = []) (shows : shown a = []) : PassedOn a done := by
  rw [PassedOn, gets, shows]
  exact .nil

/-- A frame is given back behind its use. -/
theorem Balanced.frame (h : Balanced a) (frame : MppFrame) :
    Balanced (.getFrame (some (some frame)) :: (a ++ [.frameDeinit])) where
  packets n := by
    show held _ _ (a ++ [.frameDeinit]) n = some n
    rw [held_append, h.packets]
    rfl
  frames := h.frames.around rfl ⟨rfl, rfl⟩
  fds n := by
    show held _ _ (a ++ [.frameDeinit]) n = some n
    rw [held_append, h.fds]
    rfl

end Calls

variable {W : Type} {mpp : Mpp W}

/-! ## Passing on a picture -/

/-- What a call of `emit_mpp_frame` does. -/
structure Emits (frame : MppFrame) (st : Status) (calls : List MppCall) : Prop where
  notAgain : st ≠ .again
  puts : accepted calls = []
  gets : pictures calls = []
  shows : shown calls = if st = .ok then [frame.exposed] else []
  ends : calls.any MppCall.ends = false
  balanced : Balanced calls

theorem Emits.refuses {frame : MppFrame} {st : Status} (bad : st ≠ .ok) (notAgain : st ≠ .again) :
    Emits frame st [] where
  notAgain := notAgain
  puts := rfl
  gets := rfl
  shows := by
    rw [if_neg bad]
    rfl
  ends := rfl
  balanced := ⟨fun _ => rfl, fun _ => rfl, fun _ => rfl⟩

theorem borrowDmabuf_linear {spec : Spec} {fd : Int} {size : Nat} (domain : spec.domain = .dmabuf) (owned : ¬fd < 0)
    (linear : isLinear spec = true) :
    borrowDmabuf spec fd size = .ok { spec, fd, size, corrupt := false, pts := kTsUnknown, dts := kTsUnknown } := by
  simp [borrowDmabuf, domain, owned, linear]

theorem shown_emit (frame : DmabufFrame) (st : Status) :
    shown [.emit frame st] = if st = .ok then [frame.exposed] else [] := by
  cases st <;> rfl

theorem emitMppFrame_spec (frame : MppFrame) : Traces (emitMppFrame mpp frame) (Emits frame) := by
  unfold emitMppFrame
  split
  · exact Traces.pure (.refuses (by decide) (by decide))
  rename_i buffer held
  refine Traces.ite (fun _ => Traces.pure (.refuses (by decide) (by decide))) fun _ => ?_
  dsimp only
  refine Traces.ite (fun _ => Traces.pure (.refuses (by decide) (by decide))) fun _ => ?_
  refine Traces.ite (fun _ => Traces.pure (.refuses (by decide) (by decide))) fun _ => ?_
  refine Traces.call_bind fun owned => Traces.ite (fun failed => Traces.pure ?_) fun owns => ?_
  · have none : ¬0 ≤ owned := Int.not_le.mpr failed
    refine ⟨by decide, rfl, rfl, rfl, rfl, fun _ => rfl, fun _ => rfl, fun n => ?_⟩
    simp [Lib.held, MppCall.takesFd, MppCall.givesFd, none]
  · rw [borrowDmabuf_linear rfl owns rfl]
    refine Traces.call_bind fun st => Traces.pure ?_
    have own : 0 ≤ owned := Int.not_lt.mp owns
    refine ⟨?_, rfl, rfl, ?_, rfl, fun _ => rfl, fun _ => rfl, fun n => ?_⟩
    · split
      · decide
      · assumption
    · show shown [.emit _ st] = _
      rw [shown_emit]
      by_cases ok : st = .ok
      · subst ok
        show [_] = [_]
        simp only [DmabufFrame.exposed, MppFrame.exposed, MppFrame.spec, held, Option.map_some, Option.getD_some]
      · have bad : (if st = .again then Status.hw else st) ≠ .ok := by
          split
          · decide
          · exact ok
        rw [if_neg ok, if_neg bad]
    · simp [Lib.held, MppCall.takesFd, MppCall.givesFd, own]

/-! ## Draining -/

theorem notAgain_ok : Status.ok ≠ .again := by decide

/-- What a drain does, from `emitted` frames on. -/
structure Drains (untilEos : Bool) (emitted : Nat) (r : Status × Nat) (calls : List MppCall) : Prop where
  notAgain : r.1 ≠ .again
  puts : accepted calls = []
  passedOn : PassedOn calls (r.1 = .ok)
  counted : r.2 = emitted + (shown calls).length
  balanced : Balanced calls
  ended : untilEos = true → r.1 = .ok → calls.any MppCall.ends = true

/-- A drain that stops before a picture. -/
theorem Drains.stop {untilEos : Bool} {emitted : Nat} {st : Status} {calls : List MppCall} (notAgain : st ≠ .again)
    (puts : accepted calls = []) (gets : pictures calls = []) (shows : shown calls = []) (balanced : Balanced calls)
    (ended : untilEos = true → st = .ok → calls.any MppCall.ends = true) :
    Drains untilEos emitted (st, emitted) calls where
  notAgain := notAgain
  puts := puts
  passedOn := .of_none gets shows
  counted := by
    rw [shows]
    rfl
  balanced := balanced
  ended := ended

/-- A drain that goes on. -/
theorem Drains.after {untilEos : Bool} {emitted : Nat} {r : Status × Nat} (first : List MppCall)
    {rest : List MppCall} (puts : accepted first = []) (passedOn : PassedOn first True) (balanced : Balanced first)
    (h : Drains untilEos (emitted + (shown first).length) r rest) : Drains untilEos emitted r (first ++ rest) where
  notAgain := h.notAgain
  puts := by
    rw [accepted_append, puts, h.puts]
    rfl
  passedOn := passedOn.append h.passedOn
  counted := by rw [h.counted, shown_append, List.length_append, Nat.add_assoc]
  balanced := balanced.append h.balanced
  ended all ok := by rw [List.any_append, h.ended all ok, Bool.or_true]

/-- The calls between a frame and its end: its picture is passed on, or it has none. -/
def Handled (frame : MppFrame) (st : Status) (calls : List MppCall) : Prop :=
  (frame.buffer.isSome = true ∧ Emits frame st calls) ∨ (frame.buffer = none ∧ st = .ok ∧ calls = [])

/-- A turn of the loop with a frame. -/
theorem Handled.turn {frame : MppFrame} {st : Status} {calls : List MppCall} (h : Handled frame st calls)
    (noChange : frame.infoChange = false) :
    let turn := .getFrame (some (some frame)) :: (calls ++ [.frameDeinit])
    st ≠ .again ∧ accepted turn = [] ∧ PassedOn turn (st = .ok) ∧ Balanced turn ∧
      (shown turn).length = if frame.buffer.isSome = true ∧ st = .ok then 1 else 0 := by
  intro turn
  have split : turn = [.getFrame (some (some frame))] ++ calls ++ [.frameDeinit] := by
    rw [List.append_assoc]
    rfl
  have picture : pictures [.getFrame (some (some frame))] =
      if frame.buffer.isSome = true then [frame.exposed] else [] := by
    simp only [pictures, List.filterMap_cons, List.filterMap_nil, MppCall.picture, noChange]
    cases frame.buffer <;> rfl
  rcases h with ⟨held, emits⟩ | ⟨bare, rfl, rfl⟩
  · rw [if_pos held] at picture
    have gets : pictures turn = [frame.exposed] := by
      rw [split, pictures_append, pictures_append, picture, emits.gets]
      rfl
    have shows : shown turn = if st = .ok then [frame.exposed] else [] := by
      rw [split, shown_append, shown_append, emits.shows]
      exact List.append_nil _
    refine ⟨emits.notAgain, ?_, ⟨?_, ?_, ?_⟩, emits.balanced.frame frame, ?_⟩
    · rw [split, accepted_append, accepted_append, emits.puts]
      rfl
    · rw [gets, shows]
      split_ifs
      · exact List.prefix_rfl
      · exact List.nil_prefix
    · rw [gets]
      exact Nat.le_add_left 1 _
    · intro ok
      rw [gets, shows, if_pos ok]
    · rw [shows]
      by_cases ok : st = .ok
      · rw [if_pos ok, if_pos ⟨held, ok⟩]
        rfl
      · rw [if_neg ok, if_neg fun both => ok both.2]
        rfl
  · have bareSome : ¬frame.buffer.isSome = true := by rw [bare]; decide
    rw [if_neg bareSome] at picture
    refine ⟨by decide, rfl, .of_none ?_ rfl, Balanced.frame ⟨fun _ => rfl, fun _ => rfl, fun _ => rfl⟩ frame, ?_⟩
    · rw [split, pictures_append, pictures_append, picture]
      rfl
    · rw [if_neg fun both => bareSome both.1]
      rfl

theorem drainDecoder_spec (untilEos : Bool) (fuel emitted : Nat) :
    Traces (drainDecoder mpp untilEos fuel emitted) (Drains untilEos emitted) := by
  induction fuel generalizing emitted with
  | zero => exact Traces.stay
  | succ fuel ih =>
    rw [drainDecoder]
    refine Traces.call_bind fun answer => ?_
    match answer with
    | none =>
      exact Traces.pure (.stop (by decide) rfl rfl rfl ⟨fun _ => rfl, fun _ => rfl, fun _ => rfl⟩ nofun)
    | some none =>
      refine Traces.pure (.stop ?_ rfl rfl rfl ⟨fun _ => rfl, fun _ => rfl, fun _ => rfl⟩ ?_)
      · split <;> decide
      · intro all ok
        rw [if_pos all] at ok
        cases ok
    | some (some frame) =>
      dsimp only
      refine Traces.ite (fun change => ?_) fun same => ?_
      · have none : MppCall.picture (.getFrame (some (some frame))) = none := by
          rw [MppCall.picture, change]
          rfl
        have whole : ∀ ready, PassedOn [.getFrame (some (some frame)), .control .infoChangeReady ready, .frameDeinit]
            True := by
          intro ready
          apply PassedOn.of_none _ rfl
          simp only [pictures, List.filterMap_cons, none]
          rfl
        have balanced : ∀ ready, Balanced [.getFrame (some (some frame)), .control .infoChangeReady ready,
            .frameDeinit] := by
          intro ready
          exact Balanced.frame (a := [.control .infoChangeReady ready])
            ⟨fun _ => rfl, fun _ => rfl, fun _ => rfl⟩ frame
        refine Traces.call_bind fun ready => Traces.tell_bind (Traces.ite (fun _ => ?_) fun _ => Traces.pure ?_)
        · exact (ih emitted).mono fun r rest h =>
            Drains.after [.getFrame (some (some frame)), .control .infoChangeReady ready, .frameDeinit] rfl (whole ready)
              (balanced ready) h
        · exact .stop (by decide) rfl (by simp only [pictures, List.filterMap_cons, none]; rfl) rfl (balanced ready)
            fun _ failed => by cases failed
      · have noChange : frame.infoChange = false := by simpa using same
        refine Traces.bind (Q := Handled frame) ?_ fun st calls handled => ?_
        · refine Traces.ite (fun held => ?_) fun bare => Traces.pure ?_
          · exact (emitMppFrame_spec frame).mono fun st calls h => .inl ⟨held, h⟩
          · exact .inr ⟨by simpa using bare, rfl, rfl⟩
        · obtain ⟨notAgain, puts, passedOn, balanced, count⟩ := handled.turn noChange
          have regroup : ∀ rest : List MppCall, .getFrame (some (some frame)) :: (calls ++ .frameDeinit :: rest) =
              (.getFrame (some (some frame)) :: (calls ++ [.frameDeinit])) ++ rest := by
            intro rest
            simp
          have ended : frame.eos = true →
              (MppCall.getFrame (some (some frame)) :: (calls ++ [.frameDeinit])).any MppCall.ends = true := by
            intro eos
            rw [List.any_cons, MppCall.ends, noChange, eos]
            rfl
          have after : (if frame.buffer.isSome = true ∧ st = .ok then emitted + 1 else emitted) =
              emitted + (shown (.getFrame (some (some frame)) :: (calls ++ [.frameDeinit]))).length := by
            rw [count]
            split_ifs <;> rfl
          rw [after]
          generalize turn : MppCall.getFrame (some (some frame)) :: (calls ++ [.frameDeinit]) = first at *
          refine Traces.tell_bind (Traces.ite (fun bad => Traces.pure ?_) fun ok =>
            Traces.ite (fun eos => Traces.pure ?_) fun _ => ?_)
          · show Drains untilEos emitted _ (MppCall.getFrame (some (some frame)) :: (calls ++ [.frameDeinit]))
            rw [turn]
            exact ⟨notAgain, puts, passedOn, rfl, balanced, fun _ ok => absurd ok bad⟩
          · show Drains untilEos emitted _ (MppCall.getFrame (some (some frame)) :: (calls ++ [.frameDeinit]))
            rw [turn]
            exact ⟨notAgain_ok, puts, ⟨passedOn.begins, passedOn.lost, fun _ => passedOn.whole (not_not.mp ok)⟩, rfl,
              balanced, fun _ _ => ended eos⟩
          · refine (ih _).mono fun r rest h => ?_
            show Drains untilEos emitted r (MppCall.getFrame (some (some frame)) :: (calls ++ .frameDeinit :: rest))
            rw [regroup]
            exact h.after first puts (passedOn.now (not_not.mp ok)) balanced

/-! ## Handing over a packet -/

/-- What the loop of `process` does, holding a packet, from `emitted` frames on. -/
structure Puts (packet : MppPacket) (emitted : Nat) (r : Status × Nat × Bool) (calls : List MppCall) : Prop where
  notAgain : r.1 ≠ .again
  puts : accepted calls = if r.1 = .ok then [packet] else []
  passedOn : PassedOn calls (r.1 = .ok)
  counted : r.2.1 = emitted + (shown calls).length
  packets : ∀ n, held MppCall.takesPacket MppCall.givesPacket calls (n + 1) = some (if r.2.2 then n + 1 else n)
  frames : Returns MppCall.takesFrame MppCall.givesFrame calls
  fds : Returns MppCall.takesFd MppCall.givesFd calls

/-- The chip is full: the packet is made anew, and frames are drained. -/
structure Refilled (emitted : Nat) (r : Status × Nat) (calls : List MppCall) : Prop where
  notAgain : r.1 ≠ .again
  puts : accepted calls = []
  passedOn : PassedOn calls (r.1 = .ok)
  counted : r.2 = emitted + (shown calls).length
  packets : ∀ n, held MppCall.takesPacket MppCall.givesPacket calls (n + 1) = some (n + 1)
  frames : Returns MppCall.takesFrame MppCall.givesFrame calls
  fds : Returns MppCall.takesFd MppCall.givesFd calls

theorem Drains.refilled {untilEos : Bool} {emitted : Nat} {r : Status × Nat} {calls : List MppCall}
    (h : Drains untilEos emitted r calls) (packet : MppPacket) :
    Refilled emitted r (.putPacket packet .bufferFull :: .packetDeinit :: .packetInit true :: calls) where
  notAgain := h.notAgain
  puts := h.puts
  passedOn := ⟨h.passedOn.begins, h.passedOn.lost, h.passedOn.whole⟩
  counted := h.counted
  packets n := h.balanced.packets (n + 1)
  frames := h.balanced.frames
  fds := h.balanced.fds

/-- A drain that fails ends the loop. -/
theorem Refilled.fails {emitted : Nat} {r : Status × Nat} {calls : List MppCall} (h : Refilled emitted r calls)
    (packet : MppPacket) {st : Status} (bad : st ≠ .ok) (notAgain : st ≠ .again) (rest : List MppCall)
    (quiet : accepted rest = [] ∧ pictures rest = [] ∧ shown rest = [] ∧ Balanced rest) :
    Puts packet emitted (st, r.2, true) (calls ++ rest) := by
  obtain ⟨puts, gets, shows, balanced⟩ := quiet
  refine ⟨notAgain, ?_, ⟨?_, ?_, fun ok => absurd ok bad⟩, ?_, fun n => ?_, fun n => ?_, fun n => ?_⟩
  · rw [accepted_append, h.puts, puts, if_neg bad]
    rfl
  · rw [shown_append, pictures_append, shows, gets, List.append_nil, List.append_nil]
    exact h.passedOn.begins
  · rw [shown_append, pictures_append, shows, gets, List.append_nil, List.append_nil]
    exact h.passedOn.lost
  · rw [shown_append, shows, List.append_nil]
    exact h.counted
  · rw [held_append, h.packets, Option.bind_some, balanced.packets]
    rfl
  · rw [held_append, h.frames, Option.bind_some, balanced.frames]
  · rw [held_append, h.fds, Option.bind_some, balanced.fds]

/-- A loop that goes on. -/
theorem Refilled.again {packet : MppPacket} {emitted : Nat} {r : Status × Nat} {r' : Status × Nat × Bool}
    {calls rest : List MppCall} (h : Refilled emitted r calls) (ok : r.1 = .ok) (later : Puts packet r.2 r' rest)
    (between : List MppCall) (quiet : accepted between = [] ∧ pictures between = [] ∧ shown between = [] ∧
      Balanced between) : Puts packet emitted r' (calls ++ (between ++ rest)) := by
  obtain ⟨puts, gets, shows, balanced⟩ := quiet
  refine ⟨later.notAgain, ?_, ?_, ?_, fun n => ?_, fun n => ?_, fun n => ?_⟩
  · rw [accepted_append, accepted_append, h.puts, puts, later.puts]
    rfl
  · exact (h.passedOn.now ok).append ((PassedOn.of_none gets shows).append later.passedOn)
  · rw [shown_append, shown_append, shows, later.counted, h.counted, List.nil_append, List.length_append, Nat.add_assoc]
  · rw [held_append, h.packets, Option.bind_some, held_append, balanced.packets, Option.bind_some, later.packets]
  · rw [held_append, h.frames, Option.bind_some, held_append, balanced.frames, Option.bind_some, later.frames]
  · rw [held_append, h.fds, Option.bind_some, held_append, balanced.fds, Option.bind_some, later.fds]

theorem putLoop_spec (packet : MppPacket) (fuel : Nat) (deadline : Timespec) (emitted : Nat) :
    Traces (putLoop mpp packet fuel deadline emitted) (Puts packet emitted) := by
  induction fuel generalizing deadline emitted with
  | zero => exact Traces.stay
  | succ fuel ih =>
    rw [putLoop]
    refine Traces.call_bind fun ret => ?_
    cases ret with
    | ok =>
      exact Traces.pure ⟨by simp, rfl, .of_none rfl rfl, rfl, fun _ => rfl, fun _ => rfl, fun _ => rfl⟩
    | failed =>
      exact Traces.pure ⟨by simp, rfl, .of_none rfl rfl, rfl, fun _ => rfl, fun _ => rfl, fun _ => rfl⟩
    | bufferFull =>
      refine Traces.tell_bind (Traces.call_bind fun made => Traces.ite (fun none => Traces.pure ?_) fun some => ?_)
      · have failed : made = false := by simpa using none
        subst failed
        exact ⟨by simp, rfl, .of_none rfl rfl, rfl, fun _ => rfl, fun _ => rfl, fun _ => rfl⟩
      · have done : made = true := by simpa using some
        subst done
        refine (drainDecoder_spec false fuel emitted).bind fun r calls drains => ?_
        have refilled := drains.refilled packet
        obtain ⟨ds, after⟩ := r
        refine Traces.ite (fun bad => Traces.pure ?_) fun ok => ?_
        · have fails := refilled.fails packet bad refilled.notAgain [] ⟨rfl, rfl, rfl, fun _ => rfl, fun _ => rfl, fun _ => rfl⟩
          rw [List.append_nil] at fails ⊢
          exact fails
        · have ok := not_not.mp ok
          refine Traces.call_bind fun now => Traces.ite (fun _ => ?_) fun _ =>
            Traces.ite (fun _ => Traces.tell_bind (Traces.pure ?_)) fun _ => Traces.call_bind fun _ => ?_
          · exact (ih now.later after).mono fun r' rest later => refilled.again ok later [.clock now]
              ⟨rfl, rfl, rfl, fun _ => rfl, fun _ => rfl, fun _ => rfl⟩
          · exact refilled.fails packet (by decide) (by decide) [.clock now, .diag _ _ _]
              ⟨rfl, rfl, rfl, fun _ => rfl, fun _ => rfl, fun _ => rfl⟩
          · exact (ih deadline after).mono fun r' rest later => refilled.again ok later [.clock now, .nap]
              ⟨rfl, rfl, rfl, fun _ => rfl, fun _ => rfl, fun _ => rfl⟩

/-! ## Calls of the node -/

/-- What a call of the node does: the chip takes the packets it should, if it succeeds. -/
structure Serves (packets : List MppPacket) (dec : MppDecoderNode) (r : Status × MppDecoderNode)
    (calls : List MppCall) : Prop where
  notAgain : r.1 ≠ .again
  begins : accepted calls <+: packets
  all : r.1 = .ok → accepted calls = packets
  passedOn : PassedOn calls (r.1 = .ok)
  counted : r.2.emitted = dec.emitted + (shown calls).length
  balanced : Balanced calls

theorem Serves.then {packets more : List MppPacket} {dec : MppDecoderNode} {r r' : Status × MppDecoderNode}
    {first rest : List MppCall} (h : Serves packets dec r first) (ok : r.1 = .ok)
    (later : Serves more r.2 r' rest) : Serves (packets ++ more) dec r' (first ++ rest) where
  notAgain := later.notAgain
  begins := by
    rw [accepted_append, h.all ok]
    exact (List.prefix_append_right_inj _).mpr later.begins
  all done := by rw [accepted_append, h.all ok, later.all done]
  passedOn := (h.passedOn.now ok).append later.passedOn
  counted := by rw [later.counted, h.counted, shown_append, List.length_append, Nat.add_assoc]
  balanced := h.balanced.append later.balanced

/-- A call that fails leaves the packets behind it. -/
theorem Serves.failed {packets : List MppPacket} {dec : MppDecoderNode} {r : Status × MppDecoderNode}
    {calls : List MppCall} (h : Serves packets dec r calls) (bad : r.1 ≠ .ok) (more : List MppPacket) :
    Serves (packets ++ more) dec r calls where
  notAgain := h.notAgain
  begins := h.begins.trans (List.prefix_append _ _)
  all ok := absurd ok bad
  passedOn := h.passedOn
  counted := h.counted
  balanced := h.balanced

/-- Calls that neither hand over nor pass on anything. -/
structure Idle (calls : List MppCall) : Prop where
  puts : accepted calls = []
  gets : pictures calls = []
  shows : shown calls = []
  balanced : Balanced calls

theorem Idle.append {a b : List MppCall} (first : Idle a) (rest : Idle b) : Idle (a ++ b) where
  puts := by
    rw [accepted_append, first.puts, rest.puts]
    rfl
  gets := by
    rw [pictures_append, first.gets, rest.gets]
    rfl
  shows := by
    rw [shown_append, first.shows, rest.shows]
    rfl
  balanced := first.balanced.append rest.balanced

/-- A call that fails early. -/
theorem Idle.fails {packets : List MppPacket} {dec dec' : MppDecoderNode} {st : Status} {calls : List MppCall}
    (h : Idle calls) (bad : st ≠ .ok) (notAgain : st ≠ .again) (same : dec'.emitted = dec.emitted) :
    Serves packets dec (st, dec') calls where
  notAgain := notAgain
  begins := by
    rw [h.puts]
    exact List.nil_prefix
  all ok := absurd ok bad
  passedOn := .of_none h.gets h.shows
  counted := by
    rw [h.shows]
    exact same
  balanced := h.balanced

/-- A call goes on behind an idle part. -/
theorem Idle.serves {packets : List MppPacket} {dec dec' : MppDecoderNode} {r : Status × MppDecoderNode}
    {first rest : List MppCall} (h : Idle first) (same : dec'.emitted = dec.emitted)
    (later : Serves packets dec' r rest) : Serves packets dec r (first ++ rest) where
  notAgain := later.notAgain
  begins := by
    rw [accepted_append, h.puts]
    exact later.begins
  all ok := by
    rw [accepted_append, h.puts]
    exact later.all ok
  passedOn := (PassedOn.of_none h.gets h.shows).append later.passedOn
  counted := by
    rw [shown_append, h.shows, ← same]
    exact later.counted
  balanced := h.balanced.append later.balanced

theorem Idle.control {command : MppCommand} {ok : Bool} : Idle [.control command ok] :=
  ⟨rfl, rfl, rfl, fun _ => rfl, fun _ => rfl, fun _ => rfl⟩

theorem Idle.diag {stage node reason : String} : Idle [.diag stage node reason] :=
  ⟨rfl, rfl, rfl, fun _ => rfl, fun _ => rfl, fun _ => rfl⟩

namespace MppDecoderNode

variable (mpp)

theorem initLocked_spec (dec : MppDecoderNode) :
    Traces (dec.initLocked mpp) fun r calls => Idle calls ∧ r.2.emitted = dec.emitted ∧
      (r.1 = .ok ∧ r.2.initialized = true ∨ r.1 = .hw ∧ r.2 = dec) := by
  unfold initLocked
  refine Traces.call_bind fun a => Traces.ite (fun _ => Traces.pure ?_) fun _ =>
    Traces.call_bind fun b => Traces.ite (fun _ => Traces.pure ?_) fun _ =>
    Traces.call_bind fun c => Traces.ite (fun _ => Traces.pure ?_) fun _ =>
    Traces.call_bind fun d => Traces.ite (fun _ => Traces.pure ?_) fun _ => Traces.pure ?_
  · exact ⟨⟨rfl, rfl, rfl, fun _ => rfl, fun _ => rfl, fun _ => rfl⟩, rfl, .inr ⟨rfl, rfl⟩⟩
  · exact ⟨⟨rfl, rfl, rfl, fun _ => rfl, fun _ => rfl, fun _ => rfl⟩, rfl, .inr ⟨rfl, rfl⟩⟩
  · exact ⟨⟨rfl, rfl, rfl, fun _ => rfl, fun _ => rfl, fun _ => rfl⟩, rfl, .inr ⟨rfl, rfl⟩⟩
  · exact ⟨⟨rfl, rfl, rfl, fun _ => rfl, fun _ => rfl, fun _ => rfl⟩, rfl, .inr ⟨rfl, rfl⟩⟩
  · exact ⟨⟨rfl, rfl, rfl, fun _ => rfl, fun _ => rfl, fun _ => rfl⟩, rfl, .inl ⟨rfl, rfl⟩⟩

/-- The packet that is left, if any, is given back. -/
theorem handed {packet : MppPacket} {emitted : Nat} {r : Status × Nat × Bool} {calls between : List MppCall}
    (puts : Puts packet emitted r calls) (start : Timespec)
    (quiet : accepted between = [] ∧ pictures between = [] ∧ shown between = [])
    (returned : ∀ n, held MppCall.takesPacket MppCall.givesPacket between (if r.2.2 then n + 1 else n) = some n)
    (frames : ∀ n, held MppCall.takesFrame MppCall.givesFrame between n = some n)
    (fds : ∀ n, held MppCall.takesFd MppCall.givesFd between n = some n) :
    let all := .packetInit true :: .clock start :: (calls ++ between)
    accepted all = accepted calls ∧ pictures all = pictures calls ∧ shown all = shown calls ∧ Balanced all := by
  obtain ⟨noPuts, noGets, noShows⟩ := quiet
  intro all
  refine ⟨?_, ?_, ?_, fun n => ?_, fun n => ?_, fun n => ?_⟩
  · show accepted (calls ++ between) = _
    rw [accepted_append, noPuts, List.append_nil]
  · show pictures (calls ++ between) = _
    rw [pictures_append, noGets, List.append_nil]
  · show shown (calls ++ between) = _
    rw [shown_append, noShows, List.append_nil]
  · show held _ _ (calls ++ between) (n + 1) = _
    rw [held_append, puts.packets, Option.bind_some, returned]
  · show held _ _ (calls ++ between) n = _
    rw [held_append, puts.frames, Option.bind_some, frames]
  · show held _ _ (calls ++ between) n = _
    rw [held_append, puts.fds, Option.bind_some, fds]

theorem feed_spec (fuel : Nat) (dec : MppDecoderNode) (packet : MppPacket) :
    Traces (dec.feed mpp fuel packet) fun r calls =>
      Serves [packet] dec r calls ∧ r.2.initialized = dec.initialized := by
  unfold feed
  refine Traces.call_bind fun made => Traces.ite (fun none => Traces.pure ?_) fun some =>
    Traces.call_bind fun start => ?_
  · have failed : made = false := by simpa using none
    subst failed
    exact ⟨Idle.fails ⟨rfl, rfl, rfl, fun _ => rfl, fun _ => rfl, fun _ => rfl⟩ (by decide) (by decide) rfl, rfl⟩
  · have done : made = true := by simpa using some
    subst done
    refine (putLoop_spec packet fuel start.later dec.emitted).bind fun r calls puts => ?_
    obtain ⟨out, emitted, left⟩ := r
    refine Traces.bind (Q := fun _ between => between = if left = true then [.packetDeinit] else []) ?_
      fun _ between is => ?_
    · cases left with
      | true => exact Traces.tell rfl
      | false => exact Traces.pure rfl
    · have whole : let all := .packetInit true :: .clock start :: (calls ++ between)
          accepted all = accepted calls ∧ pictures all = pictures calls ∧ shown all = shown calls ∧ Balanced all := by
        subst is
        cases left with
        | true => exact handed puts start ⟨rfl, rfl, rfl⟩ (fun _ => rfl) (fun _ => rfl) fun _ => rfl
        | false => exact handed puts start ⟨rfl, rfl, rfl⟩ (fun _ => rfl) (fun _ => rfl) fun _ => rfl
      obtain ⟨taken, gets, shows, balanced⟩ := whole
      have regroup : ∀ rest, MppCall.packetInit true :: .clock start :: (calls ++ (between ++ rest)) =
          (.packetInit true :: .clock start :: (calls ++ between)) ++ rest := by
        intro rest
        simp
      have passedOn := puts.passedOn
      generalize named : MppCall.packetInit true :: .clock start :: (calls ++ between) = all at *
      have begins := puts.puts
      have counted := puts.counted
      refine Traces.ite (fun bad => Traces.pure ?_) fun ok => ?_
      · show Serves _ _ _ (MppCall.packetInit true :: .clock start :: (calls ++ (between ++ []))) ∧ _
        rw [List.append_nil, named]
        rw [if_neg bad] at begins
        refine ⟨⟨puts.notAgain, ?_, fun ok => absurd ok bad, ⟨?_, ?_, fun ok => absurd ok bad⟩, ?_, balanced⟩, rfl⟩
        · rw [taken, begins]
          exact List.nil_prefix
        · rw [shows, gets]
          exact passedOn.begins
        · rw [shows, gets]
          exact passedOn.lost
        · rw [shows]
          exact counted
      · have ok := not_not.mp ok
        rw [if_pos ok] at begins
        refine (drainDecoder_spec false fuel emitted).bind fun r later drains => Traces.pure ?_
        show Serves _ _ _ (MppCall.packetInit true :: .clock start :: (calls ++ (between ++ (later ++ [])))) ∧ _
        rw [List.append_nil, regroup]
        have front : PassedOn all True := ⟨by rw [shows, gets]; exact passedOn.begins,
          by rw [shows, gets]; exact passedOn.lost, fun _ => by rw [shows, gets]; exact passedOn.whole ok⟩
        have one : accepted (all ++ later) = [packet] := by
          rw [accepted_append, taken, begins, drains.puts]
          rfl
        refine ⟨⟨drains.notAgain, one ▸ List.prefix_rfl, fun _ => one, front.append drains.passedOn, ?_,
          balanced.append drains.balanced⟩, rfl⟩
        show r.2 = _
        rw [drains.counted, shown_append, shows, List.length_append, ← Nat.add_assoc]
        exact congrArg (· + _) counted

/-- The packet of an input. -/
def packetOf (input : StreamFrame) : MppPacket := { data := input.data.getD [], pts := input.pts, dts := input.dts }

theorem process_spec (fuel : Nat) (dec : MppDecoderNode) (input : StreamFrame) :
    Traces (dec.process mpp fuel input) fun r calls => Serves [packetOf input] dec r calls ∧
      (r.1 = .ok → r.2.initialized = true) ∧ (dec.initialized = true → r.2.initialized = true) := by
  have refuses : ∀ {calls}, Idle calls → Serves [packetOf input] dec (.format, dec) calls := fun idle =>
    idle.fails (by decide) (by decide) rfl
  have none : Idle [] := ⟨rfl, rfl, rfl, fun _ => rfl, fun _ => rfl, fun _ => rfl⟩
  unfold process
  split
  · exact Traces.pure ⟨refuses none, nofun, id⟩
  · rename_i data held
    refine Traces.ite (fun _ => Traces.pure ⟨refuses none, nofun, id⟩) fun _ => ?_
    have same : ({ data, pts := input.pts, dts := input.dts } : MppPacket) = packetOf input := by
      rw [packetOf, held]
      rfl
    dsimp only
    rw [same]
    refine Traces.ite (fun initialized => ?_) fun fresh => ?_
    · refine (feed_spec mpp fuel dec _).mono fun r calls h => ⟨h.1, fun _ => ?_, fun _ => ?_⟩
      · rw [h.2, initialized]
      · rw [h.2, initialized]
    · split
      · exact Traces.tell_bind (Traces.pure ⟨refuses Idle.diag, nofun, id⟩)
      · refine (initLocked_spec mpp _).bind fun r calls h => ?_
        obtain ⟨idle, same, ended⟩ := h
        obtain ⟨st, dec'⟩ := r
        refine Traces.ite (fun bad => Traces.pure ?_) fun ok => ?_
        · rw [List.append_nil]
          have notAgain : st ≠ .again := by
            rcases ended with ⟨rfl, -⟩ | ⟨rfl, -⟩ <;> decide
          exact ⟨idle.fails bad notAgain same, fun ok => absurd ok bad, fun initialized => absurd initialized fresh⟩
        · have ready : dec'.initialized = true := by
            rcases ended with ⟨-, ready⟩ | ⟨failed, -⟩
            · exact ready
            · rw [failed] at ok
              exact absurd (not_not.mp ok) (by decide)
          refine (feed_spec mpp fuel dec' _).mono fun r rest h => ?_
          exact ⟨idle.serves same h.1, fun _ => h.2.trans ready, fun _ => h.2.trans ready⟩

theorem flush_spec (fuel : Nat) (dec : MppDecoderNode) :
    Traces (dec.flush mpp fuel) fun r calls =>
      Serves (if dec.initialized = true then [eosPacket] else []) dec r calls ∧
        (dec.initialized = true → r.1 = .ok → calls.any MppCall.ends = true) := by
  unfold flush
  refine Traces.ite (fun fresh => Traces.pure ?_) fun ready => ?_
  · have none : ¬dec.initialized = true := by simpa using fresh
    rw [if_neg none]
    exact ⟨⟨notAgain_ok, List.prefix_rfl, fun _ => rfl, .of_none rfl rfl, rfl,
      fun _ => rfl, fun _ => rfl, fun _ => rfl⟩, fun initialized => absurd initialized none⟩
  have initialized : dec.initialized = true := by simpa using ready
  rw [if_pos initialized]
  refine Traces.call_bind fun set => Traces.ite (fun _ => Traces.pure ?_) fun _ => Traces.call_bind fun made =>
    Traces.ite (fun none => Traces.pure ?_) fun some => Traces.call_bind fun ret => Traces.tell_bind
    (Traces.ite (fun bad => Traces.pure ?_) fun ok => ?_)
  · exact ⟨Idle.fails Idle.control (by decide) (by decide) rfl, fun _ => nofun⟩
  · have failed : made = false := by simpa using none
    subst failed
    exact ⟨Idle.fails ⟨rfl, rfl, rfl, fun _ => rfl, fun _ => rfl, fun _ => rfl⟩ (by decide) (by decide) rfl,
      fun _ => nofun⟩
  · have done : made = true := by simpa using some
    subst done
    have refused : accepted [.putPacket eosPacket ret] = [] := by
      cases ret with
      | ok => exact absurd rfl bad
      | _ => rfl
    exact ⟨Idle.fails ⟨refused, rfl, rfl, fun _ => rfl, fun _ => rfl, fun _ => rfl⟩ (by decide) (by decide) rfl,
      fun _ => nofun⟩
  · have done : made = true := by simpa using some
    subst done
    have taken := not_not.mp ok
    subst taken
    refine (drainDecoder_spec true fuel dec.emitted).bind fun r calls drains => Traces.pure ?_
    rw [List.append_nil]
    have one : accepted (.control (.outputTimeout 5000) set :: .packetInit true :: .putPacket eosPacket .ok ::
        .packetDeinit :: calls) = [eosPacket] := by
      show eosPacket :: accepted calls = _
      rw [drains.puts]
    refine ⟨⟨drains.notAgain, one ▸ List.prefix_rfl, fun _ => one,
      ⟨drains.passedOn.begins, drains.passedOn.lost, drains.passedOn.whole⟩, drains.counted,
      fun n => drains.balanced.packets n, drains.balanced.frames, drains.balanced.fds⟩, fun _ done => ?_⟩
    exact drains.ended rfl done

/-- The end of the stream is handed over behind a packet. -/
def ending (dec : MppDecoderNode) (inputs : List StreamFrame) : List MppPacket :=
  if dec.initialized = true ∨ inputs ≠ [] then [eosPacket] else []

theorem decodeAll_spec (fuel : Nat) (dec : MppDecoderNode) (inputs : List StreamFrame) :
    Traces (dec.decodeAll mpp fuel inputs) fun r calls =>
      Serves (inputs.map packetOf ++ ending dec inputs) dec r calls ∧
        (dec.initialized = true ∨ inputs ≠ [] → r.1 = .ok → calls.any MppCall.ends = true) := by
  induction inputs generalizing dec with
  | nil =>
    refine (flush_spec mpp fuel dec).mono fun r calls h => ?_
    have same : ending dec [] = if dec.initialized = true then [eosPacket] else [] := by
      simp [ending]
    rw [same]
    refine ⟨h.1, fun ready done => h.2 ?_ done⟩
    rcases ready with initialized | some
    · exact initialized
    · exact absurd rfl some
  | cons input inputs ih =>
    rw [decodeAll]
    refine (process_spec mpp fuel dec input).bind fun r calls h => ?_
    obtain ⟨serves, ready, -⟩ := h
    obtain ⟨st, dec'⟩ := r
    have more : ending dec (input :: inputs) = [eosPacket] := if_pos (.inr (List.cons_ne_nil _ _))
    rw [more, List.map_cons]
    refine Traces.ite (fun bad => Traces.pure ?_) fun ok => ?_
    · rw [List.append_nil]
      exact ⟨serves.failed bad _, fun _ done => absurd done bad⟩
    · have ok := not_not.mp ok
      have initialized : dec'.initialized = true := ready ok
      have rest : ending dec' inputs = [eosPacket] := if_pos (.inl initialized)
      refine (ih dec').mono fun r' later h' => ?_
      rw [rest] at h'
      refine ⟨serves.then ok h'.1, fun _ done => ?_⟩
      rw [List.any_append, h'.2 (.inl initialized) done, Bool.or_true]

/-- **A run of the decoder**, whatever the chip answers and whenever its pictures are ready. The chip takes the packets
in order, each once; the pictures that come back are passed on in order, each once, and a failure loses no more than
the last; packets, frames and descriptors are given back once; and a run that succeeds has handed over the whole stream
and its end, and has seen that end come back. It never asks to be called again. -/
theorem decode_run (fuel : Nat) (dec : MppDecoderNode) (inputs : List StreamFrame) :
    Traces (dec.decodeAll mpp fuel inputs) fun r calls =>
      accepted calls <+: inputs.map packetOf ++ [eosPacket] ∧ shown calls <+: pictures calls ∧
        (pictures calls).length ≤ (shown calls).length + 1 ∧ Balanced calls ∧
        r.2.emitted = dec.emitted + (shown calls).length ∧ r.1 ≠ .again ∧
        (r.1 = .ok → shown calls = pictures calls ∧ (dec.initialized = true ∨ inputs ≠ [] →
          accepted calls = inputs.map packetOf ++ [eosPacket] ∧ calls.any MppCall.ends = true)) := by
  refine (decodeAll_spec mpp fuel dec inputs).mono fun r calls h => ?_
  obtain ⟨serves, ended⟩ := h
  refine ⟨serves.begins.trans ?_, serves.passedOn.begins, serves.passedOn.lost, serves.balanced, serves.counted,
    serves.notAgain, fun ok => ⟨serves.passedOn.whole ok, fun ready => ⟨?_, ended ready ok⟩⟩⟩
  · rw [ending]
    split
    · exact List.prefix_rfl
    · exact (List.prefix_append_right_inj _).mpr List.nil_prefix
  · rw [serves.all ok, ending, if_pos ready]

end MppDecoderNode

end Rkvc.H264h265
