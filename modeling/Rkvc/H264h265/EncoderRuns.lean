import Rkvc.H264h265.Encoder

/-!
# Runs of the hardware encoder

All packets of the encoder lie in one buffer. Whatever the chip answers, it gets no picture
before the last packet of the one before has come back, it gets the pictures in order, each
once, and its packets are passed on in order, each once (`encode_run`).
-/

namespace Rkvc.H264h265
set_option autoImplicit false
open Lib Lib.Driver Video

/-! ## What is seen of the calls -/

/-- The packet that is passed on; an empty one is not. -/
def MppOutputPacket.carried (packet : MppOutputPacket) : Option StreamPacket :=
  if packet.data = [] then none else some { data := packet.data, pts := packet.pts, dts := packet.dts }

namespace EncoderCall

/-- A packet that has come back. -/
def packet : EncoderCall → Option StreamPacket
  | .getPacket (.packet packet) => packet.carried
  | _ => none

/-- A packet that the queue behind the node has taken. -/
def passed : EncoderCall → Option StreamPacket
  | .emit packet .ok => some packet
  | _ => none

/-- A frame that the chip has taken. -/
def handed : EncoderCall → Option MppInputFrame
  | .putFrame frame true => some frame
  | _ => none

/-- The turn of the buffer: whether the chip still owes packets of its last picture. It must not be handed a frame
while it does. -/
def turn (owed : Bool) : EncoderCall → Option Bool
  | .putFrame _ taken => if owed then none else some taken
  | .getPacket (.packet packet) => some (owed && !packet.last)
  | _ => some owed

/-- A call that has nothing to do with pictures and packets. -/
def quiet : EncoderCall → Bool
  | .putFrame _ _ => false
  | .getPacket _ => false
  | .emit _ _ => false
  | _ => true

/-- The end of the stream has come back. -/
def ends : EncoderCall → Bool
  | .getPacket (.packet packet) => packet.eos
  | _ => false

end EncoderCall

/-- The packets that have come back. -/
def packets (calls : List EncoderCall) : List StreamPacket := calls.filterMap EncoderCall.packet

/-- The packets that have been passed on. -/
def passed (calls : List EncoderCall) : List StreamPacket := calls.filterMap EncoderCall.passed

/-- The frames that the chip has taken, and the end of the stream. -/
def handed (calls : List EncoderCall) : List MppInputFrame := calls.filterMap EncoderCall.handed

/-- Whose turn the buffer is behind some calls; `none` if a picture has come too early. -/
def turns (calls : List EncoderCall) (owed : Bool) : Option Bool := calls.foldlM EncoderCall.turn owed

/-- Calls that have nothing to do with pictures and packets. -/
structure Aside (calls : List EncoderCall) : Prop where
  comes : packets calls = []
  goes : passed calls = []
  hands : handed calls = []
  owes : ∀ owed, turns calls owed = some owed

section Calls

variable {a b : List EncoderCall}

@[simp] theorem packets_append : packets (a ++ b) = packets a ++ packets b := List.filterMap_append

@[simp] theorem passed_append : passed (a ++ b) = passed a ++ passed b := List.filterMap_append

@[simp] theorem handed_append : handed (a ++ b) = handed a ++ handed b := List.filterMap_append

theorem turns_append (owed : Bool) : turns (a ++ b) owed = (turns a owed).bind (turns b) := List.foldlM_append

theorem Aside.nil : Aside [] := ⟨rfl, rfl, rfl, fun _ => rfl⟩

theorem Aside.append (first : Aside a) (rest : Aside b) : Aside (a ++ b) where
  comes := by
    rw [packets_append, first.comes, rest.comes]
    rfl
  goes := by
    rw [passed_append, first.goes, rest.goes]
    rfl
  hands := by
    rw [handed_append, first.hands, rest.hands]
    rfl
  owes owed := by rw [turns_append, first.owes, Option.bind_some, rest.owes]

theorem Aside.one {c : EncoderCall} (quiet : c.quiet = true) : Aside [c] := by
  cases c with
  | putFrame _ _ => cases quiet
  | getPacket _ => cases quiet
  | emit _ _ => cases quiet
  | _ => exact ⟨rfl, rfl, rfl, fun _ => rfl⟩

theorem Aside.of_quiet {calls : List EncoderCall} (quiet : calls.all EncoderCall.quiet = true) : Aside calls := by
  induction calls with
  | nil => exact .nil
  | cons c calls ih =>
    rw [List.all_cons, Bool.and_eq_true] at quiet
    exact (Aside.one quiet.1).append (ih quiet.2)

end Calls

variable {W : Type} {api : EncoderApi W}

/-- A part of the driver that has nothing to do with pictures and packets. -/
abbrev Asides {α : Type} (p : Driver W EncoderCall α) : Prop := Traces p fun _ => Aside

section Asides

variable {α β : Type} {p q : Driver W EncoderCall α} {k : α → Driver W EncoderCall β}

theorem asides_pure {a : α} : Asides (pure a : Driver W EncoderCall α) := Traces.pure Aside.nil

theorem Asides.bind (first : Asides p) (second : ∀ a, Asides (k a)) : Asides (p >>= k) :=
  Traces.bind first fun a _ before => (second a).mono fun _ _ rest => before.append rest

theorem asides_call {answer : W → α × W} {note : α → EncoderCall} (quiet : ∀ a, (note a).quiet = true) :
    Asides (call answer note) := Traces.call fun a => .one (quiet a)

theorem asides_tell {note : EncoderCall} (quiet : note.quiet = true) :
    Asides (tell note : Driver W EncoderCall Unit) :=
  Traces.tell (.one quiet)

theorem asides_ite {c : Prop} [Decidable c] (left : Asides p) (right : Asides q) : Asides (if c then p else q) :=
  Traces.ite (fun _ => left) fun _ => right

end Asides

/-! ## Packets -/

/-- What passing on a packet does. -/
structure PassesOn (packet : MppOutputPacket) (st : Status) (calls : List EncoderCall) : Prop where
  comes : packets calls = []
  goes : passed calls = if st = .ok then packet.carried.toList else []
  hands : handed calls = []
  owes : ∀ owed, turns calls owed = some owed

theorem emitPacket_spec (packet : MppOutputPacket) : Traces (emitPacket api packet) (PassesOn packet) := by
  unfold emitPacket
  refine Traces.ite (fun empty => Traces.pure ?_) fun full => Traces.call_bind fun ok => ?_
  · refine ⟨rfl, ?_, rfl, fun _ => rfl⟩
    rw [if_pos rfl, MppOutputPacket.carried, if_pos empty]
    rfl
  · have carried : packet.carried = some { data := packet.data, pts := packet.pts, dts := packet.dts } := if_neg full
    refine Traces.ite (fun _ => Traces.pure ⟨rfl, rfl, rfl, fun _ => rfl⟩) fun _ => Traces.call fun st => ?_
    refine ⟨rfl, ?_, rfl, fun _ => rfl⟩
    rw [carried]
    cases st <;> rfl

/-- A packet comes, is passed on, and is given back. -/
theorem PassesOn.packet {packet : MppOutputPacket} {st : Status} {calls : List EncoderCall}
    (h : PassesOn packet st calls) :
    let turn := .getPacket (.packet packet) :: (calls ++ [.packetDeinit])
    Relays (packets turn) (passed turn) (st = .ok) ∧ handed turn = [] ∧
      ∀ owed, turns turn owed = some (owed && !packet.last) := by
  intro turn
  have split : turn = [.getPacket (.packet packet)] ++ calls ++ [.packetDeinit] := by
    rw [List.append_assoc]
    rfl
  have comes : packets turn = packet.carried.toList := by
    rw [split, packets_append, packets_append, h.comes, List.append_nil]
    simp only [packets, List.filterMap_cons, List.filterMap_nil, EncoderCall.packet]
    cases packet.carried <;> rfl
  have goes : passed turn = if st = .ok then packet.carried.toList else [] := by
    rw [split, passed_append, passed_append, h.goes]
    exact List.append_nil _
  refine ⟨⟨?_, ?_, fun ok => ?_⟩, ?_, fun owed => ?_⟩
  · rw [comes, goes]
    split_ifs
    · exact List.prefix_rfl
    · exact List.nil_prefix
  · rw [comes]
    cases packet.carried with
    | none => exact Nat.zero_le _
    | some _ => exact Nat.le_add_left 1 _
  · rw [comes, goes, if_pos ok]
  · rw [split, handed_append, handed_append, h.hands]
    rfl
  · rw [split, List.append_assoc, turns_append]
    show (some _).bind _ = _
    rw [Option.bind_some, turns_append, h.owes]
    rfl

/-- What draining does: the packets of a picture are passed on, up to its last. -/
structure Drained (owed : Bool) (st : Status) (calls : List EncoderCall) : Prop where
  relays : Relays (packets calls) (passed calls) (st = .ok)
  hands : handed calls = []
  owes : ∃ still, turns calls owed = some still ∧ (st = .ok → still = false)

theorem Drained.nothing {owed : Bool} {st : Status} {got : GotPacket} (none : ∀ packet, got ≠ .packet packet)
    (fails : st ≠ .ok) : Drained owed st [.getPacket got] := by
  cases got with
  | packet packet => exact absurd rfl (none packet)
  | null => exact ⟨.nil, rfl, owed, rfl, fun ok => absurd ok fails⟩
  | nok => exact ⟨.nil, rfl, owed, rfl, fun ok => absurd ok fails⟩
  | failed => exact ⟨.nil, rfl, owed, rfl, fun ok => absurd ok fails⟩

theorem Drained.behind {owed still : Bool} {st : Status} {first rest : List EncoderCall}
    (relays : Relays (packets first) (passed first) True) (none : handed first = [])
    (turn : turns first owed = some still) (later : Drained still st rest) : Drained owed st (first ++ rest) where
  relays := by
    rw [packets_append, passed_append]
    exact relays.append later.relays
  hands := by
    rw [handed_append, none, later.hands]
    rfl
  owes := by
    rw [turns_append, turn, Option.bind_some]
    exact later.owes

theorem regroup (c d : EncoderCall) (calls rest : List EncoderCall) :
    c :: (calls ++ d :: rest) = (c :: (calls ++ [d])) ++ rest := by simp

theorem drainFramePackets_spec (fuel : Nat) : Traces (drainFramePackets api fuel) (Drained true) := by
  induction fuel with
  | zero => exact Traces.stay
  | succ fuel ih =>
    rw [drainFramePackets]
    refine Traces.call_bind fun got => ?_
    cases got with
    | packet packet =>
      refine (emitPacket_spec packet).bind fun st calls passes => ?_
      obtain ⟨relays, none, turn⟩ := passes.packet
      refine Traces.tell_bind (Traces.ite (fun stops => Traces.pure ⟨relays, none, _, turn true, ?_⟩) fun goesOn => ?_)
      · intro ok
        rcases stops with bad | last
        · exact absurd ok bad
        · rw [last]
          rfl
      · obtain ⟨ok, more⟩ := not_or.mp goesOn
        have owed := turn true
        have notLast : packet.last = false := by simpa using more
        rw [notLast] at owed
        refine ih.mono fun st' rest later => ?_
        rw [regroup]
        exact later.behind (relays.now (not_not.mp ok)) none owed
    | _ => exact Traces.pure (.nothing (by simp) (by decide))

/-- Draining up to the end of the stream. -/
structure Flushed (st : Status) (calls : List EncoderCall) : Prop where
  relays : Relays (packets calls) (passed calls) (st = .ok)
  hands : handed calls = []
  owes : ∀ owed, turns calls owed ≠ none
  ends : st = .ok → calls.any EncoderCall.ends = true

theorem drainPackets_spec (fuel : Nat) : Traces (drainPackets api true fuel) Flushed := by
  induction fuel with
  | zero => exact Traces.stay
  | succ fuel ih =>
    rw [drainPackets]
    refine Traces.call_bind fun got => ?_
    cases got with
    | packet packet =>
      refine (emitPacket_spec packet).bind fun st calls passes => ?_
      obtain ⟨relays, none, turn⟩ := passes.packet
      have some : ∀ owed, turns (.getPacket (.packet packet) :: (calls ++ [.packetDeinit])) owed ≠ Option.none := by
        intro owed
        rw [turn]
        exact Option.some_ne_none _
      refine Traces.tell_bind (Traces.ite (fun bad => Traces.pure ⟨relays, none, some, fun ok => absurd ok bad⟩)
        fun ok => Traces.ite (fun eos => Traces.pure ⟨not_not.mp ok ▸ relays, none, some, fun _ => ?_⟩) fun _ => ?_)
      · have last : packet.eos = true := by simpa using eos
        rw [List.any_cons, EncoderCall.ends, last]
        rfl
      · refine ih.mono fun st' rest later => ?_
        rw [regroup]
        refine ⟨?_, ?_, fun owed => ?_, fun done => ?_⟩
        · rw [packets_append, passed_append]
          exact (relays.now (not_not.mp ok)).append later.relays
        · rw [handed_append, none, later.hands]
          rfl
        · rw [turns_append, turn, Option.bind_some]
          exact later.owes _
        · rw [List.any_append, later.ends done, Bool.or_true]
    | _ => exact Traces.pure ⟨.nil, rfl, fun owed => Option.some_ne_none owed, fun ok => by cases ok⟩

/-! ## Pictures -/

/-- The memory of a picture: the sender's own, or what `host_copy` has moved of it. -/
def Pictured (context : MppContext) (input : VideoFrame) (buf : MppInputBuffer) : Prop :=
  input.spec.domain = .dmabuf ∧ buf = .imported input.fd input.size ∨
    ∃ memory src, buf = .copied (copy memory (mppMoves input.spec context.geometry) src) ∧
      (input.spec.domain ≠ .dmabuf → input.data = some src)

/-- What the chip gets of an input: its picture, its time and its regions. -/
def Hands (input : VideoFrame) (frame : MppInputFrame) : Prop :=
  ∃ context : MppContext, ∃ buf roi, frame = { context.frame with buffer := some buf, pts := input.pts, roi } ∧
    (input.spec.width = 0 ∨ input.spec.width = context.geometry.width) ∧
    (input.spec.height = 0 ∨ input.spec.height = context.geometry.height) ∧ Pictured context input buf ∧
    attachRoi true context.geometry.width context.geometry.height input.roi = .ok roi

/-- A call of the node that hands over a frame, and drains what the chip makes of it. -/
structure Encodes (P : MppInputFrame → Prop) (st : Status) (calls : List EncoderCall) : Prop where
  relays : Relays (packets calls) (passed calls) (st = .ok)
  hands : handed calls = [] ∧ st ≠ .ok ∨ ∃ frame, handed calls = [frame] ∧ P frame
  owes : ∃ still, turns calls false = some still ∧ (st = .ok → still = false)

section Encodes

variable {P : MppInputFrame → Prop} {st : Status} {first rest : List EncoderCall}

/-- A call that fails before the chip has been handed anything. -/
theorem Aside.fails (h : Aside first) (bad : st ≠ .ok) : Encodes P st first where
  relays := by
    rw [h.comes, h.goes]
    exact .nil
  hands := .inl ⟨h.hands, bad⟩
  owes := ⟨false, h.owes false, fun _ => rfl⟩

theorem Aside.encodes (h : Aside first) (later : Encodes P st rest) : Encodes P st (first ++ rest) where
  relays := by
    rw [packets_append, passed_append, h.comes, h.goes]
    exact later.relays
  hands := by
    rw [handed_append, h.hands]
    exact later.hands
  owes := by
    rw [turns_append, h.owes, Option.bind_some]
    exact later.owes

theorem Encodes.aside (h : Encodes P st first) (later : Aside rest) : Encodes P st (first ++ rest) where
  relays := by
    rw [packets_append, passed_append, later.comes, later.goes, List.append_nil, List.append_nil]
    exact h.relays
  hands := by
    rw [handed_append, later.hands, List.append_nil]
    exact h.hands
  owes := by
    obtain ⟨still, turn, done⟩ := h.owes
    refine ⟨still, ?_, done⟩
    rw [turns_append, turn, Option.bind_some, later.owes]

end Encodes

theorem configure_spec (commands : List EncoderCommand) : Asides (configure api commands) := by
  induction commands with
  | nil => exact asides_pure
  | cons command commands ih =>
    rw [configure]
    exact (asides_call fun _ => rfl).bind fun _ => asides_ite ih asides_pure

theorem getGroup_spec : Asides (getGroup api) :=
  (asides_call fun _ => rfl).bind fun _ => asides_ite asides_pure (asides_call fun _ => rfl)

theorem giveUp_spec (reason : String) : Asides (giveUp reason : Driver W EncoderCall Unit) :=
  (asides_tell rfl).bind fun _ => (asides_tell rfl).bind fun _ => asides_tell rfl

theorem hostCopy_spec (context : MppContext) (spec : Spec) (src : List UInt8) :
    Traces (hostCopy api context spec src) fun r calls => Aside calls ∧
      ∀ buf, r = some buf → ∃ memory, buf = .copied (copy memory (mppMoves spec context.geometry) src) := by
  unfold hostCopy
  refine Traces.call_bind fun got => ?_
  cases got with
  | none => exact Traces.pure ⟨.of_quiet rfl, fun _ none => by cases none⟩
  | some memory =>
    refine Traces.pure ⟨.of_quiet rfl, fun buf is => ⟨memory, ?_⟩⟩
    exact (Option.some.inj is).symm

theorem dmabufWrap_spec (context : MppContext) (input : VideoFrame) (domain : input.spec.domain = .dmabuf) :
    Traces (dmabufWrap api context input) fun r calls => Aside calls ∧
      ∀ buf, r = some buf → Pictured context input buf := by
  unfold dmabufWrap
  refine Traces.call_bind fun imported => Traces.ite (fun _ => Traces.pure ⟨.of_quiet rfl, ?_⟩) fun _ =>
    Traces.call_bind fun mapped => ?_
  · intro buf is
    exact .inl ⟨domain, (Option.some.inj is).symm⟩
  · cases mapped with
    | none => exact Traces.pure ⟨.of_quiet rfl, fun _ none => by cases none⟩
    | some mapped =>
      refine (hostCopy_spec context input.spec mapped).bind fun buf calls copied => Traces.tell_bind (Traces.pure ?_)
      have front : Aside [.bufferImport input.fd input.size imported, .map input.fd input.size (some mapped)] :=
        .of_quiet rfl
      have back : Aside [.unmap] := .of_quiet rfl
      refine ⟨front.append (copied.1.append back), fun b is => ?_⟩
      obtain ⟨memory, same⟩ := copied.2 b is
      exact .inr ⟨memory, mapped, same, fun other => absurd domain other⟩

theorem pictureBuffer_spec (context : MppContext) (input : VideoFrame) :
    Traces (pictureBuffer api context input) fun r calls => Aside calls ∧
      (∀ buf, r = .ok buf → Pictured context input buf) ∧ ∀ st, r = .error st → st ≠ .ok := by
  have refused : ∀ {st : Status}, st ≠ .ok → ∀ {calls : List EncoderCall}, Aside calls → Aside calls ∧
      (∀ buf, (.error st : Except Status MppInputBuffer) = .ok buf → Pictured context input buf) ∧
      ∀ st', (.error st : Except Status MppInputBuffer) = .error st' → st' ≠ .ok := by
    intro st bad calls quiet
    exact ⟨quiet, fun _ is => (by cases is), fun _ is => Except.error.inj is ▸ bad⟩
  -- what `buf` is behind a copy or a wrap
  have given : ∀ (got : Option MppInputBuffer) {calls : List EncoderCall}, Aside calls →
      (∀ buf, got = some buf → Pictured context input buf) → Aside calls ∧
      (∀ buf, got.elim (.error Status.nomem) .ok = Except.ok buf → Pictured context input buf) ∧
      ∀ st, got.elim (.error Status.nomem) .ok = Except.error st → st ≠ .ok := by
    intro got calls quiet pictured
    cases got with
    | none => exact refused (by decide) quiet
    | some b => exact ⟨quiet, fun buf is => pictured buf (congrArg some (Except.ok.inj is)), fun _ is => (by cases is)⟩
  unfold pictureBuffer
  refine Traces.ite (fun domain => ?_) fun domain => ?_
  · refine Traces.ite (fun _ => Traces.pure (refused (by decide) .nil)) fun _ => ?_
    refine (dmabufWrap_spec context input domain).bind fun got calls wrapped => Traces.pure ?_
    rw [List.append_nil]
    exact given got wrapped.1 wrapped.2
  · split
    · exact Traces.pure (refused (by decide) .nil)
    · rename_i data held
      refine (hostCopy_spec context input.spec data).bind fun got calls copied => Traces.pure ?_
      rw [List.append_nil]
      refine given got copied.1 fun buf is => ?_
      obtain ⟨memory, same⟩ := copied.2 buf is
      exact .inr ⟨memory, data, same, fun _ => held⟩

theorem attachOutputPacket_spec : Asides (attachOutputPacket api) :=
  (asides_call fun _ => rfl).bind fun _ => asides_ite asides_pure
    ((asides_call fun _ => rfl).bind fun _ =>
      asides_ite ((asides_tell rfl).bind fun _ => asides_pure) asides_pure)

theorem attachRoi_failed {width height : Nat} {roi : RoiTable} {st : Status}
    (failed : attachRoi true width height roi = .error st) : st ≠ .ok := by
  unfold attachRoi at failed
  split at failed
  · cases failed
  split at failed
  · rename_i e clamped
    obtain rfl := Except.error.inj failed
    unfold clampRoi at clamped
    repeat' split at clamped
    all_goals cases clamped <;> decide
  · cases failed

theorem attachRegions_spec (context : MppContext) (roi : RoiTable) :
    Traces (attachRegions api context roi) fun r calls => Aside calls ∧
      (r.1 = .ok → attachRoi true context.geometry.width context.geometry.height roi = .ok r.2) := by
  unfold attachRegions
  split
  · rename_i st failed
    exact Traces.pure ⟨.nil, fun ok => absurd ok (attachRoi_failed failed)⟩
  · rename_i none
    exact Traces.pure ⟨.nil, fun _ => none⟩
  · rename_i regions some
    refine Traces.call_bind fun set => Traces.ite (fun _ => Traces.pure ⟨.of_quiet rfl, fun _ => some⟩)
      fun _ => Traces.pure ⟨.of_quiet rfl, fun ok => by cases ok⟩

theorem applyControl_spec (context : MppContext) (c : Mlvc.EncodeControl) :
    Traces (applyControl api context c) fun r calls => Aside calls ∧ r.2.geometry = context.geometry := by
  unfold applyControl
  refine Traces.bind (Q := fun _ => Aside) (asides_ite (asides_call fun _ => rfl) asides_pure)
    fun set first quiet => Traces.ite (fun _ => Traces.pure ⟨quiet.append .nil, rfl⟩) fun _ => ?_
  exact Traces.bind (Q := fun _ => Aside) (asides_ite (asides_call fun _ => rfl) asides_pure)
    fun idr later quiet' => Traces.ite (fun _ => Traces.pure ⟨quiet.append (quiet'.append .nil), rfl⟩) fun _ =>
      Traces.pure ⟨quiet.append (quiet'.append .nil), rfl⟩

/-- A frame is handed over, if all before has succeeded. -/
structure HandsOver (frame : MppInputFrame) (rc st : Status) (calls : List EncoderCall) : Prop where
  comes : packets calls = []
  goes : passed calls = []
  taken : st = .ok → rc = .ok ∧ handed calls = [frame] ∧ turns calls false = some true
  refused : st ≠ .ok → handed calls = [] ∧ turns calls false = some false

theorem handOver_spec (frame : MppInputFrame) (rc : Status) : Traces (handOver api frame rc) (HandsOver frame rc) := by
  unfold handOver
  refine Traces.bind (Q := fun st calls => HandsOver frame rc st calls) (Traces.ite (fun ok => ?_) fun bad => ?_)
    fun st calls h => Traces.tell_bind (Traces.pure ?_)
  · refine Traces.call_bind fun taken => Traces.ite (fun took => Traces.pure ?_) fun not => Traces.pure ?_
    · rw [took]
      exact ⟨rfl, rfl, fun _ => ⟨ok, rfl, rfl⟩, fun bad => absurd rfl bad⟩
    · rw [Bool.not_eq_true] at not
      rw [not]
      exact ⟨rfl, rfl, fun ok => (by cases ok), fun _ => ⟨rfl, rfl⟩⟩
  · exact Traces.pure ⟨rfl, rfl, fun ok => absurd ok bad, fun _ => ⟨rfl, rfl⟩⟩
  · have back : Aside [.frameDeinit] := .of_quiet rfl
    refine ⟨?_, ?_, fun ok => ?_, fun bad => ?_⟩
    · rw [packets_append, h.comes, back.comes]
      rfl
    · rw [passed_append, h.goes, back.goes]
      rfl
    · obtain ⟨before, frames, turn⟩ := h.taken ok
      refine ⟨before, ?_, ?_⟩
      · rw [handed_append, frames, back.hands]
        rfl
      · rw [turns_append, turn, Option.bind_some, back.owes]
    · obtain ⟨frames, turn⟩ := h.refused bad
      refine ⟨?_, ?_⟩
      · rw [handed_append, frames, back.hands]
        rfl
      · rw [turns_append, turn, Option.bind_some, back.owes]

section Encodes

variable {P : MppInputFrame → Prop} {frame : MppInputFrame} {rc st : Status} {calls rest : List EncoderCall}

theorem HandsOver.fails (h : HandsOver frame rc st calls) (bad : st ≠ .ok) : Encodes P st calls where
  relays := by
    rw [h.comes, h.goes]
    exact .nil
  hands := .inl ⟨(h.refused bad).1, bad⟩
  owes := ⟨false, (h.refused bad).2, fun _ => rfl⟩

/-- What the chip makes of the frame is drained. -/
theorem HandsOver.drained (h : HandsOver frame rc .ok calls) (is : P frame) (later : Drained true st rest) :
    Encodes P st (calls ++ rest) where
  relays := by
    rw [packets_append, passed_append, h.comes, h.goes]
    exact later.relays
  hands := by
    refine .inr ⟨frame, ?_, is⟩
    rw [handed_append, (h.taken rfl).2.1, later.hands]
    rfl
  owes := by
    rw [turns_append, (h.taken rfl).2.2, Option.bind_some]
    exact later.owes

end Encodes

namespace MppContext

theorem encode_spec (fuel : Nat) (context : MppContext) (input : VideoFrame) (buf : MppInputBuffer)
    (wide : input.spec.width = 0 ∨ input.spec.width = context.geometry.width)
    (high : input.spec.height = 0 ∨ input.spec.height = context.geometry.height)
    (pictured : Pictured context input buf) :
    Traces (context.encode api fuel input buf) (Encodes (Hands input)) := by
  unfold encode
  refine Traces.call_bind fun made => Traces.ite (fun _ => Traces.tell_bind (Traces.pure ?_)) fun _ => ?_
  · have early : Aside [.frameInit made, .bufferPut] := .of_quiet rfl
    exact early.fails (by decide)
  have front : Aside [.frameInit made] := .of_quiet rfl
  refine Traces.bind attachOutputPacket_spec fun rc before quiet => ?_
  have regions : Traces (if rc = .ok then attachRegions api context input.roi else pure (rc, none)) fun r calls =>
      Aside calls ∧
        (r.1 = .ok → attachRoi true context.geometry.width context.geometry.height input.roi = .ok r.2) := by
    refine Traces.ite (fun _ => attachRegions_spec context input.roi) fun bad => Traces.pure ⟨.nil, fun ok => ?_⟩
    exact absurd ok bad
  refine regions.bind fun r between attached => ?_
  obtain ⟨rc', roi⟩ := r
  have quiet' : Aside ([.frameInit made] ++ (before ++ between)) := front.append (quiet.append attached.1)
  have back : Aside [.bufferPut] := .of_quiet rfl
  have regroup : ∀ rest, EncoderCall.frameInit made :: (before ++ (between ++ rest)) =
      ([.frameInit made] ++ (before ++ between)) ++ rest := by
    intro rest
    simp
  refine (handOver_spec _ rc').bind fun st calls hands => ?_
  refine Traces.ite (fun bad => Traces.tell_bind (Traces.pure ?_)) fun ok => ?_
  · rw [regroup]
    exact quiet'.encodes ((hands.fails bad).aside back)
  · obtain rfl := not_not.mp ok
    refine (drainFramePackets_spec fuel).bind fun st' later drained => Traces.tell_bind (Traces.pure ?_)
    rw [regroup, ← List.append_assoc calls]
    refine quiet'.encodes ((hands.drained ?_ drained).aside back)
    exact ⟨context, buf, roi, rfl, wide, high, pictured, attached.2 (hands.taken rfl).1⟩

end MppContext

namespace MppEncoderNode

theorem initFromSpec_spec (enc : MppEncoderNode) (spec : Spec) : Asides (enc.initFromSpec api spec) := by
  unfold initFromSpec
  refine asides_ite asides_pure ?_
  split
  · exact asides_pure
  refine (asides_call fun _ => rfl).bind fun _ => asides_ite asides_pure ?_
  refine (asides_call fun _ => rfl).bind fun _ => asides_ite ((asides_tell rfl).bind fun _ => asides_pure) ?_
  refine (asides_call fun _ => rfl).bind fun _ => asides_ite
    ((giveUp_spec _).bind fun _ => asides_pure) ?_
  refine (configure_spec _).bind fun _ => asides_ite ((giveUp_spec _).bind fun _ => asides_pure) ?_
  refine getGroup_spec.bind fun _ => asides_ite ((giveUp_spec _).bind fun _ => asides_pure) ?_
  refine (asides_call fun _ => rfl).bind fun got => ?_
  cases got with
  | none => exact (giveUp_spec _).bind fun _ => asides_pure
  | some _ => exact asides_pure

theorem ready_spec (enc : MppEncoderNode) (spec : Spec) : Asides (enc.ready api spec) :=
  asides_ite asides_pure (asides_ite asides_pure (initFromSpec_spec _ spec))

theorem process_spec (fuel : Nat) (enc : MppEncoderNode) (input : VideoFrame) :
    Traces (enc.process api fuel input) fun r calls => Encodes (Hands input) r.1 calls ∧
      (r.1 = .ok → r.2.context.isSome = true) := by
  unfold process
  refine Traces.ite (fun _ => Traces.pure ⟨Aside.nil.fails (by simp), fun ok => by cases ok⟩) fun _ => ?_
  refine Traces.bind (ready_spec enc input.spec) fun r before quiet => ?_
  obtain ⟨st, enc⟩ := r
  refine Traces.ite (fun bad => Traces.pure ⟨(quiet.append .nil).fails bad, fun ok => absurd ok bad⟩) fun _ => ?_
  dsimp only
  split
  · exact Traces.pure ⟨(quiet.append .nil).fails (by simp), fun ok => by cases ok⟩
  rename_i context _
  refine Traces.ite (fun _ => Traces.pure ⟨(quiet.append .nil).fails (by simp), fun ok => by cases ok⟩) fun sized => ?_
  refine (applyControl_spec context input.encode).bind fun r between applied => ?_
  obtain ⟨st, context'⟩ := r
  obtain ⟨quiet', geometry⟩ := applied
  have wide : input.spec.width = 0 ∨ input.spec.width = context'.geometry.width := by
    rw [show context'.geometry = context.geometry from geometry]
    by_contra unequal
    exact sized (.inl (not_or.mp unequal))
  have high : input.spec.height = 0 ∨ input.spec.height = context'.geometry.height := by
    rw [show context'.geometry = context.geometry from geometry]
    by_contra unequal
    exact sized (.inr (not_or.mp unequal))
  refine Traces.ite (fun bad => Traces.tell_bind (Traces.pure ?_)) fun _ => ?_
  · have diag : Aside [.diag "process" "mpp.encode" "runtime control failed"] := .of_quiet rfl
    exact ⟨(quiet.append (quiet'.append diag)).fails bad, fun ok => absurd ok bad⟩
  refine (pictureBuffer_spec context' input).bind fun r later pictured => ?_
  have quiet'' := quiet.append (quiet'.append pictured.1)
  have regroup : ∀ rest, before ++ (between ++ (later ++ rest)) = (before ++ (between ++ later)) ++ rest := by
    intro rest
    simp
  cases r with
  | error st =>
    have bad : st ≠ .ok := pictured.2.2 st rfl
    refine Traces.pure ⟨?_, fun ok => absurd ok bad⟩
    rw [regroup, List.append_nil]
    exact quiet''.fails bad
  | ok buf =>
    refine (context'.encode_spec fuel input buf wide high (pictured.2.1 buf rfl)).bind fun rc rest encodes =>
      Traces.pure ⟨?_, fun _ => rfl⟩
    rw [List.append_nil, regroup]
    exact quiet''.encodes encodes

/-- The end of the stream is handed over, and comes back. -/
structure Ending (ready : Bool) (st : Status) (calls : List EncoderCall) : Prop where
  relays : Relays (packets calls) (passed calls) (st = .ok)
  hands : ∀ frame ∈ handed calls, frame.eos = true
  owes : turns calls false ≠ none
  ends : ready = true → st = .ok → handed calls ≠ [] ∧ calls.any EncoderCall.ends = true

theorem flush_spec (fuel : Nat) (enc : MppEncoderNode) :
    Traces (enc.flush api fuel) (Ending enc.context.isSome) := by
  have early : ∀ {st : Status} {calls : List EncoderCall} {ready : Bool}, Aside calls → (ready = true → st ≠ .ok) →
      Ending ready st calls := by
    intro st calls ready quiet bad
    refine ⟨?_, ?_, ?_, fun is ok => absurd ok (bad is)⟩
    · rw [quiet.comes, quiet.goes]
      exact .nil
    · rw [quiet.hands]
      exact fun _ mem => absurd mem List.not_mem_nil
    · rw [quiet.owes]
      exact Option.some_ne_none _
  unfold flush
  split
  · rename_i none
    rw [none]
    exact Traces.pure (early .nil fun is => by cases is)
  rename_i context some
  refine Traces.call_bind fun made => Traces.ite (fun _ => Traces.pure ?_) fun _ => ?_
  · exact early (.of_quiet rfl) fun _ => by decide
  have front : Aside [.frameInit made] := .of_quiet rfl
  refine Traces.bind attachOutputPacket_spec fun rc before quiet => ?_
  refine (handOver_spec _ rc).bind fun st calls hands => ?_
  have regroup : ∀ rest, EncoderCall.frameInit made :: (before ++ (calls ++ rest)) =
      ([.frameInit made] ++ before) ++ (calls ++ rest) := by
    intro rest
    simp
  have quiet' := front.append quiet
  refine Traces.ite (fun bad => Traces.pure ?_) fun ok => ?_
  · rw [regroup, List.append_nil]
    have fails : Encodes (fun _ => True) st _ := quiet'.encodes (hands.fails bad)
    refine ⟨fails.relays, ?_, ?_, fun _ ok => absurd ok bad⟩
    · rw [handed_append, quiet'.hands, (hands.refused bad).1]
      exact fun _ mem => absurd mem List.not_mem_nil
    · obtain ⟨still, turn, -⟩ := fails.owes
      rw [turn]
      exact Option.some_ne_none _
  · obtain rfl := not_not.mp ok
    obtain ⟨-, taken, turn⟩ := hands.taken rfl
    refine (drainPackets_spec fuel).mono fun st' rest flushed => ?_
    rw [regroup]
    have one : handed (([.frameInit made] ++ before) ++ (calls ++ rest)) = [{ context.frame with eos := true }] := by
      rw [handed_append, quiet'.hands, handed_append, taken, flushed.hands]
      rfl
    refine ⟨?_, ?_, ?_, fun _ done => ⟨?_, ?_⟩⟩
    · rw [packets_append, passed_append, quiet'.comes, quiet'.goes, packets_append, passed_append, hands.comes,
        hands.goes]
      exact flushed.relays
    · rw [one]
      intro frame mem
      rw [List.mem_singleton.mp mem]
    · rw [turns_append, quiet'.owes, Option.bind_some, turns_append, turn, Option.bind_some]
      exact flushed.owes true
    · rw [one]
      exact List.cons_ne_nil _ _
    · rw [← List.append_assoc, List.any_append, flushed.ends done, Bool.or_true]

end MppEncoderNode

end Rkvc.H264h265
