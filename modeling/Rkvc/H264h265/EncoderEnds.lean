import Rkvc.H264h265.Encoder

/-!
# An encoder that ends

The loops that drain the encoder have no bound of their own. They come to an end because a
chip makes no more packets than the frames it has been given are good for (`encode_ends`).
-/

namespace Rkvc.H264h265
set_option autoImplicit false
open Lib Lib.Driver Video

variable {W : Type}

/-- A chip that makes a bounded number of packets of a frame; `left` are those still to come in a world. -/
structure EncoderApi.Finite (api : EncoderApi W) (left : W → Nat) (perFrame : Nat) : Prop where
  create : ∀ w, left (api.create w).2 ≤ left w
  cfgInit : ∀ w, left (api.cfgInit w).2 ≤ left w
  init : ∀ coding w, left (api.init coding w).2 ≤ left w
  control : ∀ command w, left (api.control command w).2 ≤ left w
  group : ∀ dmaHeap w, left (api.group dmaHeap w).2 ≤ left w
  bufferGet : ∀ size w, left (api.bufferGet size w).2 ≤ left w
  bufferImport : ∀ fd size w, left (api.bufferImport fd size w).2 ≤ left w
  map : ∀ fd size w, left (api.map fd size w).2 ≤ left w
  frameInit : ∀ w, left (api.frameInit w).2 ≤ left w
  packetInit : ∀ w, left (api.packetInit w).2 ≤ left w
  metaPacket : ∀ w, left (api.metaPacket w).2 ≤ left w
  metaRoi : ∀ regions w, left (api.metaRoi regions w).2 ≤ left w
  brings : ∀ frame w, left (api.putFrame frame w).2 ≤ left w + perFrame
  getPacket : ∀ w, left (api.getPacket w).2 ≤ left w
  taken : ∀ w packet, (api.getPacket w).1 = .packet packet → left (api.getPacket w).2 < left w
  alloc : ∀ size w, left (api.alloc size w).2 ≤ left w
  emit : ∀ packet w, left (api.emit packet w).2 ≤ left w

/-- A part of the driver that ends, with no packet more than before still to come. -/
abbrev Spares {α : Type} (left : W → Nat) (n : Nat) (p : Driver W EncoderCall α) : Prop :=
  Halts (fun w => left w ≤ n) p fun _ w => left w ≤ n

section Spares

variable {left : W → Nat} {n : Nat} {α β : Type} {p q : Driver W EncoderCall α} {k : α → Driver W EncoderCall β}

theorem spares_pure {a : α} : Spares left n (pure a) := Halts.pure fun _ h => h

theorem spares_call {answer : W → α × W} {note : α → EncoderCall} (keeps : ∀ w, left (answer w).2 ≤ left w) :
    Spares left n (call answer note) :=
  Halts.call fun w h => Nat.le_trans (keeps w) h

theorem spares_tell {note : EncoderCall} : Spares left n (tell note) := Halts.tell fun _ h => h

theorem Spares.bind (first : Spares left n p) (second : ∀ a, Spares left n (k a)) : Spares left n (p >>= k) :=
  Halts.bind first second

theorem spares_ite {c : Prop} [Decidable c] (yes : Spares left n p) (no : Spares left n q) :
    Spares left n (if c then p else q) :=
  Halts.ite (fun _ => yes) fun _ => no

end Spares

variable {api : EncoderApi W} {left : W → Nat} {perFrame : Nat}

theorem emitPacket_halts (chip : api.Finite left perFrame) (packet : MppOutputPacket) (n : Nat) :
    Spares left n (emitPacket api packet) :=
  spares_ite spares_pure ((spares_call (chip.alloc _)).bind fun _ =>
    spares_ite spares_pure (spares_call (chip.emit _)))

/-- A packet that has come is one less to come. -/
theorem getPacket_halts (chip : api.Finite left perFrame) (n : Nat) :
    Halts (fun w => left w ≤ n) (call api.getPacket EncoderCall.getPacket) fun got w =>
      left w ≤ n ∧ ∀ packet, got = .packet packet → 0 < n ∧ left w ≤ n - 1 := by
  refine Halts.call fun w h => ⟨Nat.le_trans (chip.getPacket w) h, fun packet came => ?_⟩
  have fewer := Nat.lt_of_lt_of_le (chip.taken w packet came) h
  exact ⟨Nat.zero_lt_of_lt fewer, Nat.le_sub_one_of_lt fewer⟩

/-- The rest of a loop behind a packet: what is left of the loop is enough for the packets that are left. -/
theorem behind_packet {α : Type} {n fuel : Nat} {packet : MppOutputPacket} {p : Driver W EncoderCall α}
    (enough : n < fuel + 1) (h : n - 1 < fuel → Spares left (n - 1) p) :
    Halts (fun w => left w ≤ n ∧ ∀ packet', GotPacket.packet packet = .packet packet' → 0 < n ∧ left w ≤ n - 1) p
      fun _ w => left w ≤ n := by
  intro w here
  obtain ⟨some, fewer⟩ := here.2 packet rfl
  obtain ⟨a, w', calls, ran, done⟩ := h (by omega) w fewer
  exact ⟨a, w', calls, ran, Nat.le_trans done (Nat.sub_le n 1)⟩

theorem drainFramePackets_halts (chip : api.Finite left perFrame) {fuel n : Nat} (enough : n < fuel) :
    Spares left n (drainFramePackets api fuel) := by
  induction fuel generalizing n with
  | zero => exact absurd enough (Nat.not_lt_zero n)
  | succ fuel ih =>
    rw [drainFramePackets]
    refine (getPacket_halts chip n).bind fun got => ?_
    cases got with
    | packet packet =>
      refine behind_packet enough fun later => ?_
      exact (emitPacket_halts chip packet (n - 1)).bind fun _ => spares_tell.bind fun _ =>
        spares_ite spares_pure (ih later)
    | _ => exact Halts.pure fun _ h => h.1

theorem drainPackets_halts (chip : api.Finite left perFrame) (untilEos : Bool) {fuel n : Nat} (enough : n < fuel) :
    Spares left n (drainPackets api untilEos fuel) := by
  induction fuel generalizing n with
  | zero => exact absurd enough (Nat.not_lt_zero n)
  | succ fuel ih =>
    rw [drainPackets]
    refine (getPacket_halts chip n).bind fun got => ?_
    cases got with
    | packet packet =>
      refine behind_packet enough fun later => ?_
      exact (emitPacket_halts chip packet (n - 1)).bind fun _ => spares_tell.bind fun _ =>
        spares_ite spares_pure (spares_ite spares_pure (ih later))
    | _ => exact Halts.pure fun _ h => h.1

/-! ## What goes before -/

theorem configure_halts (chip : api.Finite left perFrame) (n : Nat) (commands : List EncoderCommand) :
    Spares left n (configure api commands) := by
  induction commands with
  | nil => exact spares_pure
  | cons command commands ih =>
    rw [configure]
    exact (spares_call (chip.control command)).bind fun _ => spares_ite ih spares_pure

theorem giveUp_halts (left : W → Nat) (n : Nat) (reason : String) : Spares left n (giveUp reason) :=
  spares_tell.bind fun _ => spares_tell.bind fun _ => spares_tell

theorem applyControl_halts (chip : api.Finite left perFrame) (n : Nat) (context : MppContext) (c : Mlvc.EncodeControl) :
    Spares left n (applyControl api context c) :=
  (spares_ite (spares_call (chip.control _)) spares_pure).bind fun _ => spares_ite spares_pure
    ((spares_ite (spares_call (chip.control _)) spares_pure).bind fun _ => spares_ite spares_pure spares_pure)

theorem hostCopy_halts (chip : api.Finite left perFrame) (n : Nat) (context : MppContext) (spec : Spec)
    (src : List UInt8) : Spares left n (hostCopy api context spec src) := by
  refine (spares_call (chip.bufferGet _)).bind fun got => ?_
  cases got with
  | none => exact spares_pure
  | some memory => exact spares_pure

theorem dmabufWrap_halts (chip : api.Finite left perFrame) (n : Nat) (context : MppContext) (input : VideoFrame) :
    Spares left n (dmabufWrap api context input) := by
  refine (spares_call (chip.bufferImport _ _)).bind fun _ => spares_ite spares_pure ?_
  refine (spares_call (chip.map _ _)).bind fun got => ?_
  cases got with
  | none => exact spares_pure
  | some mapped =>
    exact (hostCopy_halts chip n context _ mapped).bind fun _ => spares_tell.bind fun _ => spares_pure

theorem pictureBuffer_halts (chip : api.Finite left perFrame) (n : Nat) (context : MppContext) (input : VideoFrame) :
    Spares left n (pictureBuffer api context input) := by
  unfold pictureBuffer
  refine spares_ite (spares_ite spares_pure ?_) ?_
  · exact (dmabufWrap_halts chip n context input).bind fun _ => spares_pure
  · split
    · exact spares_pure
    · exact (hostCopy_halts chip n context _ _).bind fun _ => spares_pure

theorem attachOutputPacket_halts (chip : api.Finite left perFrame) (n : Nat) :
    Spares left n (attachOutputPacket api) :=
  (spares_call chip.packetInit).bind fun _ => spares_ite spares_pure
    ((spares_call chip.metaPacket).bind fun _ => spares_ite (spares_tell.bind fun _ => spares_pure) spares_pure)

theorem attachRegions_halts (chip : api.Finite left perFrame) (n : Nat) (context : MppContext) (roi : RoiTable) :
    Spares left n (attachRegions api context roi) := by
  unfold attachRegions
  split
  · exact spares_pure
  · exact spares_pure
  · exact (spares_call (chip.metaRoi _)).bind fun _ => spares_ite spares_pure spares_pure

/-! ## Frames -/

/-- A part of the driver that ends, and hands over a frame at most. -/
abbrev Brings {α : Type} (left : W → Nat) (n perFrame : Nat) (p : Driver W EncoderCall α) : Prop :=
  Halts (fun w => left w ≤ n) p fun _ w => left w ≤ n + perFrame

theorem Spares.brings {α : Type} {n : Nat} {p : Driver W EncoderCall α} (h : Spares left n p) :
    Brings left n perFrame p :=
  h.mono (fun _ h => h) fun _ _ h => Nat.le_add_right_of_le h

theorem handOver_halts (chip : api.Finite left perFrame) (n : Nat) (frame : MppInputFrame) (rc : Status) :
    Brings left n perFrame (handOver api frame rc) := by
  have put : Brings left n perFrame (call (api.putFrame frame) (.putFrame frame)) :=
    Halts.call fun w h => Nat.le_trans (chip.brings frame w) (Nat.add_le_add_right h perFrame)
  refine Halts.bind (Q := fun _ w => left w ≤ n + perFrame) ?_ fun _ => spares_tell.bind fun _ => spares_pure
  exact Halts.ite (fun _ => put.bind fun _ => spares_ite spares_pure spares_pure) fun _ => spares_pure.brings

theorem MppContext.encode_halts (chip : api.Finite left perFrame) {fuel n : Nat} (enough : n + perFrame < fuel)
    (context : MppContext) (input : VideoFrame) (buf : MppInputBuffer) :
    Brings left n perFrame (context.encode api fuel input buf) := by
  unfold encode
  refine Halts.bind (spares_call chip.frameInit) fun _ => Halts.ite
    (fun _ => (spares_tell.bind fun _ => spares_pure).brings) fun _ => ?_
  refine Halts.bind (attachOutputPacket_halts chip n) fun _ => ?_
  refine Halts.bind (spares_ite (attachRegions_halts chip n context _) spares_pure) fun _ => ?_
  refine (handOver_halts chip n _ _).bind fun _ => spares_ite (spares_tell.bind fun _ => spares_pure) ?_
  exact (drainFramePackets_halts chip enough).bind fun _ => spares_tell.bind fun _ => spares_pure

namespace MppEncoderNode

theorem initFromSpec_halts (chip : api.Finite left perFrame) (n : Nat) (enc : MppEncoderNode) (spec : Spec) :
    Spares left n (enc.initFromSpec api spec) := by
  unfold initFromSpec
  have fails : ∀ reason, Spares left n (giveUp reason >>= fun _ => pure (Status.hw, enc) :
      Driver W EncoderCall (Status × MppEncoderNode)) :=
    fun reason => (giveUp_halts left n reason).bind fun _ => spares_pure
  refine spares_ite spares_pure ?_
  split
  · exact spares_pure
  refine (spares_call chip.create).bind fun _ => spares_ite spares_pure ?_
  refine (spares_call chip.cfgInit).bind fun _ => spares_ite (spares_tell.bind fun _ => spares_pure) ?_
  refine (spares_call (chip.init _)).bind fun _ => spares_ite (fails _) ?_
  refine (configure_halts chip n _).bind fun _ => spares_ite (fails _) ?_
  have group : Spares left n (getGroup api) :=
    (spares_call (chip.group _)).bind fun _ => spares_ite spares_pure (spares_call (chip.group _))
  refine group.bind fun _ => spares_ite (fails _) ?_
  refine (spares_call (chip.bufferGet _)).bind fun got => ?_
  cases got with
  | none => exact (giveUp_halts left n _).bind fun _ => spares_pure
  | some _ => exact spares_pure

theorem process_halts (chip : api.Finite left perFrame) {fuel n : Nat} (enough : n + perFrame < fuel)
    (enc : MppEncoderNode) (input : VideoFrame) : Brings left n perFrame (enc.process api fuel input) := by
  have early : ∀ r : Status × MppEncoderNode, Brings left n perFrame (pure r) := fun _ => spares_pure.brings
  have ready : Spares left n (enc.ready api input.spec) :=
    spares_ite spares_pure (spares_ite spares_pure (initFromSpec_halts chip n _ _))
  unfold process
  refine Halts.ite (fun _ => early _) fun _ => Halts.bind ready fun r => Halts.ite (fun _ => early _) fun _ => ?_
  dsimp only
  split
  · exact early _
  refine Halts.ite (fun _ => early _) fun _ => Halts.bind (applyControl_halts chip n _ _) fun applied => ?_
  refine Halts.ite (fun _ => (spares_tell.bind fun _ => spares_pure).brings) fun _ => ?_
  refine Halts.bind (pictureBuffer_halts chip n _ input) fun got => ?_
  cases got with
  | error st => exact early _
  | ok buf => exact (MppContext.encode_halts chip enough _ input buf).bind fun _ => spares_pure

theorem flush_halts (chip : api.Finite left perFrame) {fuel n : Nat} (enough : n + perFrame < fuel)
    (enc : MppEncoderNode) : Brings left n perFrame (enc.flush api fuel) := by
  unfold flush
  split
  · exact spares_pure.brings
  refine Halts.bind (spares_call chip.frameInit) fun _ => Halts.ite (fun _ => spares_pure.brings) fun _ => ?_
  refine Halts.bind (attachOutputPacket_halts chip n) fun _ => (handOver_halts chip n _ _).bind fun _ => ?_
  exact spares_ite spares_pure (drainPackets_halts chip true enough)

theorem encodeAll_halts (chip : api.Finite left perFrame) (inputs : List VideoFrame) {fuel n : Nat}
    (enough : n + (inputs.length + 1) * perFrame < fuel) (enc : MppEncoderNode) :
    Brings left n ((inputs.length + 1) * perFrame) (enc.encodeAll api fuel inputs) := by
  induction inputs generalizing n enc with
  | nil =>
    rw [List.length_nil, Nat.zero_add, Nat.one_mul] at enough ⊢
    rw [encodeAll]
    exact (flush_halts chip enough enc).bind fun _ => spares_pure
  | cons input inputs ih =>
    have split : n + ((input :: inputs).length + 1) * perFrame = n + perFrame + (inputs.length + 1) * perFrame := by
      rw [List.length_cons, Nat.succ_mul (inputs.length + 1)]
      omega
    rw [split] at enough
    have now : n + perFrame < fuel := Nat.lt_of_le_of_lt (Nat.le_add_right _ _) enough
    rw [encodeAll]
    refine (process_halts chip now enc input).bind fun r => Halts.ite (fun _ => Halts.pure fun w h => ?_) fun _ => ?_
    · rw [split]
      exact Nat.le_add_right_of_le h
    · exact (ih enough _).mono (fun _ h => h) fun _ _ h => split ▸ h

/-- **A session of the encoder comes to an end**, with any frames, if the chip makes a bounded number of packets of
each: neither loop that drains it goes on without end. -/
theorem encode_ends (chip : api.Finite left perFrame) (enc : MppEncoderNode) (inputs : List VideoFrame) (w : W) :
    ∃ turns, ∀ fuel, turns < fuel → ∃ st w' calls, enc.session api fuel inputs w = some (st, w', calls) := by
  refine ⟨left w + (inputs.length + 1) * perFrame, fun fuel enough => ?_⟩
  have close : ∀ (enc : MppEncoderNode) n, Spares left n (enc.close : Driver W EncoderCall Unit) := by
    intro enc n
    refine Spares.bind ?_ fun _ => spares_ite spares_tell spares_pure
    exact spares_ite (spares_tell.bind fun _ => spares_tell.bind fun _ => spares_tell) spares_pure
  have ends : Halts (fun v => left v ≤ left w) (enc.session api fuel inputs) fun _ _ => True := by
    unfold session
    refine Halts.bind (initFromSpec_halts chip (left w) enc enc.inSpec) fun r => ?_
    refine Halts.bind (Q := fun _ v => left v ≤ left w + (inputs.length + 1) * perFrame) ?_ fun r' =>
      Halts.bind (close _ _) fun _ => Halts.pure fun _ _ => trivial
    exact Halts.ite (fun _ => spares_pure.brings) fun _ => encodeAll_halts chip inputs enough _
  obtain ⟨st, w', calls, ran, -⟩ := ends w (Nat.le_refl _)
  exact ⟨st, w', calls, ran⟩

/-- A chip that makes one packet of a frame. -/
def smallChip : EncoderApi (List MppOutputPacket) where
  create w := (true, w)
  cfgInit w := (true, w)
  init _ w := (true, w)
  control _ w := (true, w)
  group _ w := (true, w)
  bufferGet size w := (some (List.replicate size 0), w)
  bufferImport _ _ w := (true, w)
  map _ _ w := (none, w)
  frameInit w := (true, w)
  packetInit w := (true, w)
  metaPacket w := (true, w)
  metaRoi _ w := (true, w)
  putFrame frame w :=
    (true, w ++
      [{ data := [0, 0, 0, 1], pts := frame.pts, dts := frame.pts, partition := false, eoi := true, eos := frame.eos }])
  getPacket w := ((w.head?.map GotPacket.packet).getD .null, w.tail)
  alloc _ w := (true, w)
  emit _ w := (.ok, w)

theorem smallChip_finite : smallChip.Finite List.length 1 where
  create _ := Nat.le_refl _
  cfgInit _ := Nat.le_refl _
  init _ _ := Nat.le_refl _
  control _ _ := Nat.le_refl _
  group _ _ := Nat.le_refl _
  bufferGet _ _ := Nat.le_refl _
  bufferImport _ _ _ := Nat.le_refl _
  map _ _ _ := Nat.le_refl _
  frameInit _ := Nat.le_refl _
  packetInit _ := Nat.le_refl _
  metaPacket _ := Nat.le_refl _
  metaRoi _ _ := Nat.le_refl _
  brings _ w := Nat.le_of_eq (List.length_append ..)
  getPacket w := by simp [smallChip]
  taken w packet came := by
    cases w with
    | nil => cases came
    | cons first rest => exact Nat.lt_succ_self _
  alloc _ _ := Nat.le_refl _
  emit _ _ := Nat.le_refl _

theorem encode_ends_small :
    let input : VideoFrame :=
      { spec := { fmt := .nv12, width := 16, height := 16 }, data := some (List.replicate 384 0), pts := 0, dts := 0 }
    ∃ turns, ∀ fuel, turns < fuel → ∃ st w' calls,
      MppEncoderNode.session smallChip fuel { request := { operation := .encode, codec := .h264 } } [input, input] [] =
        some (st, w', calls) :=
  encode_ends smallChip_finite _ _ _

end MppEncoderNode

end Rkvc.H264h265
