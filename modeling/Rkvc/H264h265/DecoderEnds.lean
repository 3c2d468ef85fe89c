import Rkvc.H264h265.Decoder

/-!
# A decoder that ends

The loops of the decoder have no bound of their own. They come to an end because a chip
makes no more frames than the packets it has been given are good for, and because a chip
that stays full without a frame is given up after ten seconds (`decode_ends`).
-/

namespace Rkvc.H264h265
set_option autoImplicit false
open Lib Lib.Driver

variable {W : Type}

/-- A time in nanoseconds. -/
def Timespec.ns (t : Timespec) : Nat := t.sec * 10 ^ 9 + t.nsec

/-- How many frames are still to come in a world, and what time it is. -/
structure Gauge (W : Type) where
  left : W → Nat
  time : W → Nat

/-- No frame more than `frames`, and no earlier than `since`. -/
structure Gauge.Within (g : Gauge W) (frames since : Nat) (w : W) : Prop where
  left : g.left w ≤ frames
  time : since ≤ g.time w

/-- A call that brings no frames. The clock never goes back. -/
def Gauge.Keeps (g : Gauge W) (w w' : W) : Prop := g.left w' ≤ g.left w ∧ g.time w ≤ g.time w'

/-- A chip that makes a bounded number of frames of a packet, and a clock that goes on while the node naps. -/
structure Mpp.Finite (mpp : Mpp W) (g : Gauge W) (perPacket : Nat) : Prop where
  init : ∀ coding w, g.Keeps w (mpp.init coding w).2
  control : ∀ command w, g.Keeps w (mpp.control command w).2
  packetInit : ∀ w, g.Keeps w (mpp.packetInit w).2
  refused : ∀ packet w, (mpp.putPacket packet w).1 ≠ .ok → g.Keeps w (mpp.putPacket packet w).2
  brings : ∀ packet w, g.left (mpp.putPacket packet w).2 ≤ g.left w + perPacket
  goesOn : ∀ packet w, g.time w ≤ g.time (mpp.putPacket packet w).2
  getFrame : ∀ w, g.Keeps w (mpp.getFrame w).2
  taken : ∀ w frame, (mpp.getFrame w).1 = some (some frame) → g.left (mpp.getFrame w).2 < g.left w
  dup : ∀ fd w, g.Keeps w (mpp.dup fd w).2
  emit : ∀ frame w, g.Keeps w (mpp.emit frame w).2
  clock : ∀ w, g.Keeps w (mpp.clock w).2
  reads : ∀ w, (mpp.clock w).1.nsec < 10 ^ 9 ∧ g.time w ≤ (mpp.clock w).1.ns ∧
    (mpp.clock w).1.ns ≤ g.time (mpp.clock w).2
  nap : ∀ w, g.left (mpp.nap w).2 ≤ g.left w ∧ g.time w < g.time (mpp.nap w).2

section Gauge

variable {g : Gauge W} {n m t u : Nat} {w w' : W}

theorem Gauge.Within.keep (h : g.Within n t w) (keeps : g.Keeps w w') : g.Within n t w' :=
  ⟨Nat.le_trans keeps.1 h.left, Nat.le_trans h.time keeps.2⟩

theorem Gauge.Within.mono (h : g.Within n t w) (more : n ≤ m) (earlier : u ≤ t) : g.Within m u w :=
  ⟨Nat.le_trans h.left more, Nat.le_trans earlier h.time⟩

/-- A call that keeps the gauge. -/
theorem halts_call {ω β : Type} {answer : W → β × W} {note : β → ω} (keeps : ∀ w, g.Keeps w (answer w).2) :
    Halts (g.Within n t) (call answer note) fun _ => g.Within n t :=
  Halts.call fun w h => h.keep (keeps w)

theorem halts_tell {ω : Type} {note : ω} : Halts (g.Within n t) (tell note) fun _ => g.Within n t :=
  Halts.tell fun _ h => h

theorem halts_pure {ω α : Type} {a : α} :
    Halts (g.Within n t) (pure a : Driver W ω α) fun _ => g.Within n t :=
  Halts.pure fun _ h => h

end Gauge

variable {mpp : Mpp W} {g : Gauge W} {perPacket : Nat}

theorem emitMppFrame_halts (chip : mpp.Finite g perPacket) (frame : MppFrame) (n t : Nat) :
    Halts (g.Within n t) (emitMppFrame mpp frame) fun _ => g.Within n t := by
  unfold emitMppFrame
  split
  · exact halts_pure
  refine Halts.ite (fun _ => halts_pure) fun _ => ?_
  dsimp only
  refine Halts.ite (fun _ => halts_pure) fun _ => Halts.ite (fun _ => halts_pure) fun _ => ?_
  refine (halts_call (chip.dup _)).bind fun owned => Halts.ite (fun _ => halts_pure) fun _ => ?_
  split
  · exact halts_tell.bind fun _ => halts_pure
  · exact (halts_call (chip.emit _)).bind fun _ => halts_pure

/-- A drain ends, and one that has emitted a frame has used one up. -/
theorem drainDecoder_halts (chip : mpp.Finite g perPacket) (untilEos : Bool) {fuel n : Nat} (enough : n < fuel)
    (t emitted : Nat) :
    Halts (g.Within n t) (drainDecoder mpp untilEos fuel emitted) fun r w =>
      g.Within n t w ∧ (r.2 ≠ emitted → 0 < n ∧ g.Within (n - 1) t w) := by
  induction fuel generalizing n emitted with
  | zero => exact absurd enough (Nat.not_lt_zero n)
  | succ fuel ih =>
    rw [drainDecoder]
    have first : Halts (g.Within n t) (call mpp.getFrame MppCall.getFrame) fun answer w =>
        g.Within n t w ∧ ∀ frame, answer = some (some frame) → g.left w < n :=
      Halts.call fun w h => ⟨h.keep (chip.getFrame w), fun frame came =>
        Nat.lt_of_lt_of_le (chip.taken w frame came) h.left⟩
    refine first.bind fun answer => ?_
    rcases answer with _ | _ | frame
    · exact Halts.pure fun _ h => ⟨h.1, fun moved => absurd rfl moved⟩
    · exact Halts.pure fun _ h => ⟨h.1, fun moved => absurd rfl moved⟩
    · -- a frame has come, and one less is left
      refine (Halts.assume (F := 0 < n) (P := g.Within (n - 1) t) (Q := fun _ => g.Within (n - 1) t) fun some => ?_).mono
        (fun w h => ?_) fun r w h => ⟨h.2.mono (Nat.sub_le n 1) (Nat.le_refl t), fun _ => h⟩
      swap
      · have used := h.2 frame rfl
        exact ⟨Nat.zero_lt_of_lt used, Nat.le_sub_one_of_lt used, h.1.time⟩
      have again : ∀ emitted, Halts (g.Within (n - 1) t) (drainDecoder mpp untilEos fuel emitted) fun _ =>
          g.Within (n - 1) t :=
        fun emitted => (ih (by omega) emitted).mono (fun _ h => h) fun _ _ h => h.1
      dsimp only
      refine Halts.ite (fun _ => ?_) fun _ => ?_
      · exact (halts_call (chip.control _)).bind fun _ => halts_tell.bind fun _ =>
          Halts.ite (fun _ => again emitted) fun _ => halts_pure
      · refine Halts.bind (Q := fun _ => g.Within (n - 1) t) ?_ fun st => halts_tell.bind fun _ =>
          Halts.ite (fun _ => halts_pure) fun _ => Halts.ite (fun _ => halts_pure) fun _ => again _
        exact Halts.ite (fun _ => emitMppFrame_halts chip frame (n - 1) t) fun _ => halts_pure

theorem Timespec.before {now deadline : Timespec} (waits : now.expired deadline = false) (carries : now.nsec < 10 ^ 9) :
    now.ns < deadline.ns := by
  simp only [Timespec.expired, Bool.or_eq_false_iff, Bool.and_eq_false_iff, decide_eq_false_iff_not] at waits
  unfold Timespec.ns
  omega

theorem Timespec.ns_later (t : Timespec) : t.later.ns = t.ns + 10 ^ 10 := by
  show (t.sec + 10) * 10 ^ 9 + t.nsec = t.sec * 10 ^ 9 + t.nsec + 10 ^ 10
  omega

/-- The turns that one frame is good for: ten seconds of naps, and the turn that emits it. -/
def kTurns : Nat := 10 ^ 10 + 1

/-- The turns of the loop before it gives up. -/
theorem putLoop_halts (chip : mpp.Finite g perPacket) (packet : MppPacket) {fuel n t : Nat} {deadline : Timespec}
    (enough : n * kTurns + (deadline.ns - t) + 1 < fuel) (emitted : Nat) :
    Halts (g.Within n t) (putLoop mpp packet fuel deadline emitted) fun _ => g.Within (n + perPacket) t := by
  induction fuel generalizing n t deadline emitted with
  | zero => exact absurd enough (Nat.not_lt_zero _)
  | succ fuel ih =>
    have stays : ∀ w, g.Within n t w → g.Within (n + perPacket) t w :=
      fun w h => h.mono (Nat.le_add_right _ _) (Nat.le_refl t)
    rw [putLoop]
    have first : Halts (g.Within n t) (call (mpp.putPacket packet) (MppCall.putPacket packet)) fun ret w =>
        g.Within (n + perPacket) t w ∧ (ret ≠ .ok → g.Within n t w) :=
      Halts.call fun w h => ⟨⟨Nat.le_trans (chip.brings packet w) (Nat.add_le_add_right h.left _),
        Nat.le_trans h.time (chip.goesOn packet w)⟩, fun refused => h.keep (chip.refused packet w refused)⟩
    refine first.bind fun ret => ?_
    cases ret with
    | ok => exact Halts.pure fun _ h => h.1
    | failed => exact Halts.pure fun _ h => h.1
    | bufferFull =>
      refine Halts.mono (P := g.Within n t) ?_ (fun w h => h.2 (by decide)) fun _ _ h => h
      refine halts_tell.bind fun _ => (halts_call chip.packetInit).bind fun made =>
        Halts.ite (fun _ => Halts.pure stays) fun _ => ?_
      have turns : n * kTurns + (deadline.ns - t) < fuel := Nat.lt_of_succ_lt_succ enough
      have room : n < fuel := by
        have more : n * 1 ≤ n * kTurns := Nat.mul_le_mul_left n (by decide)
        omega
      refine (drainDecoder_halts chip false room t emitted).bind fun r => ?_
      obtain ⟨ds, after⟩ := r
      refine Halts.ite (fun _ => Halts.pure fun w h => stays w h.1) fun _ => ?_
      have clock : Halts (fun w => g.Within n t w ∧ (after ≠ emitted → 0 < n ∧ g.Within (n - 1) t w))
          (call mpp.clock MppCall.clock) fun now w =>
            (now.nsec < 10 ^ 9 ∧ t ≤ now.ns) ∧ g.Within n now.ns w ∧
              (after ≠ emitted → 0 < n ∧ g.Within (n - 1) now.ns w) := by
        refine Halts.call fun w h => ?_
        obtain ⟨carries, since, upTo⟩ := chip.reads w
        obtain ⟨fewer, -⟩ := chip.clock w
        refine ⟨⟨carries, Nat.le_trans h.1.time since⟩, ⟨Nat.le_trans fewer h.1.left, upTo⟩, fun moved => ?_⟩
        exact ⟨(h.2 moved).1, Nat.le_trans fewer (h.2 moved).2.left, upTo⟩
      refine clock.bind fun now => ?_
      refine (Halts.assume fun read => ?_).mono (fun _ h => h) fun _ _ h => h.2
      obtain ⟨carries, since⟩ := read
      refine Halts.ite (fun moved => ?_) fun _ => Halts.ite (fun _ => ?_) fun waits => ?_
      · -- the ten seconds start again, with one frame less
        refine (Halts.assume (F := 0 < n) (P := g.Within (n - 1) now.ns) (Q := fun _ => g.Within (n - 1 + perPacket) now.ns)
          fun some => ih ?_ after).mono (fun w h => h.2 moved) fun _ w h => h.2.mono (by omega) since
        have split : n * kTurns = (n - 1) * kTurns + kTurns := by
          rw [← Nat.succ_mul, Nat.succ_eq_add_one, Nat.sub_add_cancel some]
        rw [Timespec.ns_later]
        have one : kTurns = 10 ^ 10 + 1 := rfl
        omega
      · exact (Halts.tell fun w h => h.1.mono (Nat.le_add_right _ _) since).bind fun _ => halts_pure
      · have before := Timespec.before (by simpa using waits) carries
        have nap : Halts (fun w => g.Within n now.ns w ∧ (after ≠ emitted → 0 < n ∧ g.Within (n - 1) now.ns w))
            (call mpp.nap fun _ => MppCall.nap) fun _ => g.Within n (now.ns + 1) :=
          Halts.call fun w h => ⟨Nat.le_trans (chip.nap w).1 h.1.left, Nat.lt_of_le_of_lt h.1.time (chip.nap w).2⟩
        have later : n * kTurns + (deadline.ns - (now.ns + 1)) + 1 < fuel := by omega
        exact nap.bind fun _ => (ih later after).mono (fun _ h => h) fun _ w h => h.mono (Nat.le_refl _) (by omega)

namespace MppDecoderNode

theorem initLocked_halts (chip : mpp.Finite g perPacket) (dec : MppDecoderNode) (n t : Nat) :
    Halts (g.Within n t) (dec.initLocked mpp) fun _ => g.Within n t :=
  (halts_call (chip.init _)).bind fun _ => Halts.ite (fun _ => halts_pure) fun _ =>
    (halts_call (chip.control _)).bind fun _ => Halts.ite (fun _ => halts_pure) fun _ =>
    (halts_call (chip.control _)).bind fun _ => Halts.ite (fun _ => halts_pure) fun _ =>
    (halts_call (chip.control _)).bind fun _ => Halts.ite (fun _ => halts_pure) fun _ => halts_pure

theorem feed_halts (chip : mpp.Finite g perPacket) {fuel n : Nat} (enough : (n + perPacket + 1) * kTurns < fuel)
    (dec : MppDecoderNode) (packet : MppPacket) :
    Halts (g.Within n 0) (dec.feed mpp fuel packet) fun _ => g.Within (n + perPacket) 0 := by
  have stays : ∀ w, g.Within n 0 w → g.Within (n + perPacket) 0 w :=
    fun w h => h.mono (Nat.le_add_right _ _) (Nat.le_refl 0)
  have turns : kTurns = 10 ^ 10 + 1 := rfl
  unfold feed
  refine (halts_call chip.packetInit).bind fun _ => Halts.ite (fun _ => Halts.pure stays) fun _ => ?_
  have clock : Halts (g.Within n 0) (call mpp.clock MppCall.clock) fun start => g.Within n start.ns :=
    Halts.call fun w h => ⟨Nat.le_trans (chip.clock w).1 h.left, (chip.reads w).2.2⟩
  refine clock.bind fun start => ?_
  have room : n * kTurns + (start.later.ns - start.ns) + 1 < fuel := by
    have split : (n + perPacket + 1) * kTurns = n * kTurns + perPacket * kTurns + kTurns := by
      rw [Nat.add_mul, Nat.add_mul, Nat.one_mul]
    rw [Timespec.ns_later]
    omega
  refine (putLoop_halts chip packet room dec.emitted).bind fun r => ?_
  obtain ⟨out, emitted, left⟩ := r
  have early : ∀ t w, g.Within (n + perPacket) t w → g.Within (n + perPacket) 0 w :=
    fun t w h => h.mono (Nat.le_refl _) (Nat.zero_le t)
  refine Halts.bind (Q := fun _ => g.Within (n + perPacket) 0) ?_ fun _ => ?_
  · exact Halts.ite (fun _ => Halts.tell (early _)) fun _ => Halts.pure (early _)
  · refine Halts.ite (fun _ => halts_pure) fun _ => ?_
    have room : n + perPacket < fuel := by
      have more : (n + perPacket + 1) * 1 ≤ (n + perPacket + 1) * kTurns := Nat.mul_le_mul_left _ (by decide)
      omega
    exact (drainDecoder_halts chip false room 0 emitted).bind fun _ => Halts.pure fun _ h => h.1

theorem process_halts (chip : mpp.Finite g perPacket) {fuel n : Nat} (enough : (n + perPacket + 1) * kTurns < fuel)
    (dec : MppDecoderNode) (input : StreamFrame) :
    Halts (g.Within n 0) (dec.process mpp fuel input) fun _ => g.Within (n + perPacket) 0 := by
  have stays : ∀ w, g.Within n 0 w → g.Within (n + perPacket) 0 w :=
    fun w h => h.mono (Nat.le_add_right _ _) (Nat.le_refl 0)
  unfold process
  split
  · exact Halts.pure stays
  refine Halts.ite (fun _ => Halts.pure stays) fun _ => Halts.ite (fun _ => feed_halts chip enough dec _) fun _ => ?_
  split
  · exact halts_tell.bind fun _ => Halts.pure stays
  · exact (initLocked_halts chip _ n 0).bind fun _ => Halts.ite (fun _ => Halts.pure stays) fun _ =>
      feed_halts chip enough _ _

theorem flush_halts (chip : mpp.Finite g perPacket) {fuel n : Nat} (enough : n + perPacket < fuel)
    (dec : MppDecoderNode) : Halts (g.Within n 0) (dec.flush mpp fuel) fun _ _ => True := by
  have done : ∀ {w : W}, g.Within n 0 w → True := fun _ => trivial
  unfold flush
  refine Halts.ite (fun _ => Halts.pure fun _ h => done h) fun _ => ?_
  refine (halts_call (chip.control _)).bind fun _ => Halts.ite (fun _ => Halts.pure fun _ h => done h) fun _ => ?_
  refine (halts_call chip.packetInit).bind fun _ => Halts.ite (fun _ => Halts.pure fun _ h => done h) fun _ => ?_
  have put : Halts (g.Within n 0) (call (mpp.putPacket eosPacket) (MppCall.putPacket eosPacket)) fun _ =>
      g.Within (n + perPacket) 0 :=
    Halts.call fun w h => ⟨Nat.le_trans (chip.brings _ w) (Nat.add_le_add_right h.left _), Nat.zero_le _⟩
  refine put.bind fun _ => halts_tell.bind fun _ => Halts.ite (fun _ => Halts.pure fun _ _ => trivial) fun _ => ?_
  exact (drainDecoder_halts chip true enough 0 _).bind fun _ => Halts.pure fun _ _ => trivial

theorem decodeAll_halts (chip : mpp.Finite g perPacket) (inputs : List StreamFrame) {fuel n : Nat}
    (enough : (n + (inputs.length + 1) * perPacket + 1) * kTurns < fuel) (dec : MppDecoderNode) :
    Halts (g.Within n 0) (dec.decodeAll mpp fuel inputs) fun _ _ => True := by
  induction inputs generalizing n dec with
  | nil =>
    refine flush_halts chip ?_ dec
    have more : (n + perPacket + 1) * 1 ≤ (n + perPacket + 1) * kTurns := Nat.mul_le_mul_left _ (by decide)
    rw [List.length_nil, Nat.zero_add, Nat.one_mul] at enough
    omega
  | cons input inputs ih =>
    have later : (n + perPacket + (inputs.length + 1) * perPacket + 1) * kTurns < fuel := by
      rw [List.length_cons, Nat.succ_mul (inputs.length + 1)] at enough
      rwa [Nat.add_assoc n, Nat.add_comm perPacket]
    have now : (n + perPacket + 1) * kTurns < fuel := by
      refine Nat.lt_of_le_of_lt (Nat.mul_le_mul_right kTurns ?_) later
      omega
    rw [decodeAll]
    exact (process_halts chip now dec input).bind fun _ => Halts.ite (fun _ => Halts.pure fun _ _ => trivial) fun _ =>
      ih later _

/-- **The decoder comes to an end**, from any state, with any stream, if the chip makes a bounded number of frames of a
packet and the clock goes on: every loop of the run ends, and nothing is waited for without end. -/
theorem decode_ends (chip : mpp.Finite g perPacket) (dec : MppDecoderNode) (inputs : List StreamFrame) (w : W) :
    ∃ turns, ∀ fuel, turns < fuel → ∃ r w' calls, dec.decodeAll mpp fuel inputs w = some (r, w', calls) := by
  refine ⟨(g.left w + (inputs.length + 1) * perPacket + 1) * kTurns, fun fuel enough => ?_⟩
  obtain ⟨r, w', calls, ran, -⟩ := decodeAll_halts chip inputs enough dec w ⟨Nat.le_refl _, Nat.zero_le _⟩
  exact ⟨r, w', calls, ran⟩

/-- A chip that keeps two frames. -/
structure Small where
  queue : List MppFrame
  now : Nat

def Small.chip (frame : MppFrame) : Mpp Small where
  create w := (true, w)
  init _ w := (true, w)
  control _ w := (true, w)
  packetInit w := (true, w)
  putPacket packet w :=
    if 2 ≤ w.queue.length then (.bufferFull, w)
    else (.ok, { w with queue := w.queue ++ [{ frame with eos := packet.eos, pts := packet.pts, dts := packet.dts }] })
  getFrame w := (some w.queue.head?, { w with queue := w.queue.tail })
  dup _ w := (5, w)
  emit _ w := (.ok, w)
  clock w := ({ sec := w.now / 10 ^ 9, nsec := w.now % 10 ^ 9 }, w)
  nap w := ((), { w with now := w.now + 10 ^ 6 })

theorem Small.finite (frame : MppFrame) :
    (Small.chip frame).Finite { left := fun w => w.queue.length, time := Small.now } 1 where
  init _ _ := ⟨Nat.le_refl _, Nat.le_refl _⟩
  control _ _ := ⟨Nat.le_refl _, Nat.le_refl _⟩
  packetInit _ := ⟨Nat.le_refl _, Nat.le_refl _⟩
  refused packet w bad := by
    by_cases full : 2 ≤ w.queue.length
    · simp only [Small.chip, if_pos full]
      exact ⟨Nat.le_refl _, Nat.le_refl _⟩
    · simp only [Small.chip, if_neg full] at bad
      exact absurd rfl bad
  brings packet w := by
    by_cases full : 2 ≤ w.queue.length
    · simp only [Small.chip, if_pos full]
      exact Nat.le_succ _
    · simp only [Small.chip, if_neg full, List.length_append, List.length_singleton]
      exact Nat.le_refl _
  goesOn packet w := by
    by_cases full : 2 ≤ w.queue.length <;> simp [Small.chip, full]
  getFrame w := ⟨by simp [Small.chip], Nat.le_refl _⟩
  taken w frame came := by
    cases queued : w.queue with
    | nil => simp [Small.chip, queued] at came
    | cons first rest => simp [Small.chip, queued]
  dup _ _ := ⟨Nat.le_refl _, Nat.le_refl _⟩
  emit _ _ := ⟨Nat.le_refl _, Nat.le_refl _⟩
  clock _ := ⟨Nat.le_refl _, Nat.le_refl _⟩
  reads w := by
    have split : w.now / 10 ^ 9 * 10 ^ 9 + w.now % 10 ^ 9 = w.now := Nat.div_add_mod' w.now _
    exact ⟨Nat.mod_lt _ (by decide), Nat.le_of_eq split.symm, Nat.le_of_eq split⟩
  nap w := ⟨Nat.le_refl _, Nat.lt_add_of_pos_right (by decide)⟩

theorem decode_ends_small :
    let frame : MppFrame :=
      { infoChange := false, eos := false, buffer := some { fd := 3, size := 384 },
        format := { layout := .yuv420sp, fbc := false, tile := false }, width := 16, height := 16, horStride := 16,
        verStride := 16, errinfo := false, discard := false, pts := 0, dts := 0 }
    let input : StreamFrame :=
      { spec := { fmt := .bitstream }, data := some [0, 0, 0, 1, 0x67, 0, 0, 0, 1, 0x68], pts := 0, dts := 0 }
    ∃ turns, ∀ fuel, turns < fuel → ∃ r w' calls,
      MppDecoderNode.decodeAll (Small.chip frame) fuel { operation := .decode, codec := .auto } [input, input]
        { queue := [], now := 0 } = some (r, w', calls) :=
  decode_ends (Small.finite _) _ _ _

end MppDecoderNode

end Rkvc.H264h265
