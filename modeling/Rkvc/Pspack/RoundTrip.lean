import Rkvc.Pspack.Units

/-!
# Multiplexing and demultiplexing

Whatever the access units hold and however the stream is cut, the demuxer returns
them with their timestamps. Their labels are those of the last map that has
arrived, which is that of the access unit behind them.
-/

namespace Rkvc.Pspack
set_option autoImplicit false

variable {a : Assembly} {u : AccessUnit} {units : List AccessUnit}

/-- A stream from its beginning can be received in chunks. -/
theorem stream_mem (sized : ∀ u ∈ units, u.Sized) (a : Assembly) : BehindGarbage a (flat (streamPieces units)) :=
  ⟨[], streamPieces units, rfl, behind_nil, streamPieces_valid sized, (streamPieces_chained units).1⟩

/-- **What a receiver of a whole stream gets.** -/
theorem receive_stream (sized : ∀ u ∈ units, u.Sized) {chunks : List (List UInt8)}
    (split : chunks.flatten = flat (streamPieces units)) :
    receive {} chunks = .error .refused ∨
      ∃ out, receive {} chunks = .ok out ∧ out.delivered = framesOf {} units ∧ ∀ st ∈ out.statuses, st = .again := by
  obtain ⟨whole, free⟩ := delivered_stream {} sized
  rcases receive_whole resumable_behind chunks (by rw [split]; exact stream_mem sized {}) with
    refused | ⟨out, ok, delivered, statuses⟩
  · exact .inl refused
  · rw [split] at delivered statuses
    exact .inr ⟨out, ok, delivered.trans whole, statuses.resolve_right free⟩

/-! ## The access units -/

@[simp] theorem setPsm_auPts (a : Assembly) (c : Option VideoCodec) : (a.setPsm c).auPts = a.auPts := by
  cases c <;> rfl

/-- An open access unit is completed with what was collected. -/
theorem completes_of_open (opened : a.auOpen = true) (some : a.au ≠ []) :
    ∃ codec, a.completes = .some { annexb := a.au, pts90 := a.auPts, keyframe := isKeyframe codec a.au, codec } := by
  have open' : ¬(!a.auOpen || a.au.isEmpty) = true := by simp [opened, some]
  unfold Assembly.completes Assembly.emitAu
  rw [if_neg open']
  exact ⟨_, rfl⟩

def Frame.unit (f : Frame) : List UInt8 × Int := (f.annexb, f.pts90)

def AccessUnit.unit (u : AccessUnit) : List UInt8 × Int := (u.annexb, max u.pts90 0 % 2 ^ 33)

/-- Whatever the maps do, the access units come out. -/
theorem framesOf_units (sized : ∀ u ∈ units, u.Sized) (opened : a.auOpen = true) (some : a.au ≠ []) :
    (framesOf a units).map Frame.unit = (a.au, a.auPts) :: units.map AccessUnit.unit := by
  induction units generalizing a with
  | nil =>
    obtain ⟨codec, done⟩ := completes_of_open opened some
    rw [framesOf, done]
    rfl
  | cons u units ih =>
    have sized_u := sized u (by simp)
    obtain ⟨codec, done⟩ := completes_of_open (a := a.setPsm u.map) (by rw [setPsm_auOpen]; exact opened)
      (by rw [setPsm_au]; exact some)
    have rest := ih (a := a.opened u) (fun v hv => sized v (by simp [hv])) rfl
      (List.length_pos_iff.mp sized_u.1)
    rw [framesOf, done, List.map_append, rest, setPsm_au, setPsm_auPts]
    simp only [Assembly.opened, clock33_eq]
    rfl

/-- **The round trip**: the access units come back byte for byte and in order, with
their timestamps, however the stream is cut. -/
theorem demux_roundtrip (units : List AccessUnit) (sized : ∀ u ∈ units, u.Sized) :
    ∃ stream, muxStream units = .ok stream ∧ ∀ chunks : List (List UInt8), chunks.flatten = stream →
      receive {} chunks ≠ .error .refused →
      ∃ out, receive {} chunks = .ok out ∧ out.delivered.map Frame.unit = units.map AccessUnit.unit ∧
        ∀ st ∈ out.statuses, st = .again := by
  refine ⟨_, muxStream_eq sized, fun chunks split accepted => ?_⟩
  obtain ⟨out, ok, delivered, statuses⟩ := (receive_stream sized split).resolve_left accepted
  refine ⟨out, ok, ?_, statuses⟩
  rw [delivered]
  cases units with
  | nil => rfl
  | cons u units =>
    have nothing : (Assembly.setPsm {} u.map).completes = none := by
      unfold Assembly.completes Assembly.emitAu
      rw [if_pos (by rw [setPsm_auOpen]; rfl)]
      rfl
    have sized_u := sized u (by simp)
    rw [framesOf, nothing, Option.toList_none, List.nil_append,
      framesOf_units (fun v hv => sized v (by simp [hv])) rfl (List.length_pos_iff.mp sized_u.1)]
    simp only [Assembly.opened, clock33_eq]
    rfl

/-- One byte, received in two chunks. -/
theorem demux_roundtrip_byte :
    ∃ out, receive {} [(flat (AccessUnit.pieces ⟨.avc, [9], -1, false, 25000⟩)).take 20,
        (flat (AccessUnit.pieces ⟨.avc, [9], -1, false, 25000⟩)).drop 20] = .ok out ∧
      out.delivered.map Frame.unit = [([9], 0)] ∧ ∀ st ∈ out.statuses, st = .again := by
  obtain ⟨stream, muxed, all⟩ := demux_roundtrip [⟨.avc, [9], -1, false, 25000⟩] (by decide)
  have bytes : muxStream [⟨.avc, [9], -1, false, 25000⟩] =
    .ok (flat (AccessUnit.pieces ⟨.avc, [9], -1, false, 25000⟩)) := by decide +kernel
  obtain rfl := Except.ok.inj (bytes.symm.trans muxed)
  exact all _ (by decide +kernel) (by decide +kernel)

/-! ## The labels -/

/-- The first access unit is a keyframe, and so is every one at which the codec changes. -/
def Announced (units : List AccessUnit) : Prop :=
  (∀ u ∈ units.head?, u.keyframe = true) ∧ units.IsChain fun u v => u.codec ≠ v.codec → v.keyframe = true

/-- The frame is labelled as the access unit was. -/
def Labelled (u : AccessUnit) (f : Frame) : Prop :=
  f.codec = u.codec ∧ f.keyframe = isKeyframe u.codec u.annexb

/-- The codec of the last map that has arrived is `codec`. -/
def Assembly.Mapped (a : Assembly) (codec : VideoCodec) : Prop := a.havePsm = true ∧ a.psmCodec = codec

theorem completes_of_mapped {codec : VideoCodec} (mapped : a.Mapped codec) (opened : a.auOpen = true)
    (some : a.au ≠ []) :
    a.completes = .some { annexb := a.au, pts90 := a.auPts, keyframe := isKeyframe codec a.au, codec } := by
  obtain ⟨psm, rfl⟩ := mapped
  have open' : ¬(!a.auOpen || a.au.isEmpty) = true := by simp [opened, some]
  unfold Assembly.completes Assembly.emitAu
  rw [if_neg open', psm]
  rfl

/-- An announced access unit has its own map, or the codec of the one before. -/
theorem mapped_next {codec : VideoCodec} (mapped : a.Mapped codec) (announced : codec ≠ u.codec → u.keyframe = true) :
    (a.setPsm u.map).Mapped u.codec := by
  unfold AccessUnit.map
  by_cases key : u.keyframe = true
  · rw [if_pos key]
    exact ⟨rfl, rfl⟩
  · rw [if_neg key]
    have same : codec = u.codec := by
      by_contra changes
      exact key (announced changes)
    exact ⟨mapped.1, mapped.2.trans same⟩

/-- Behind the first access unit, every frame has the label of the next. -/
theorem framesOf_labelled {v : AccessUnit} (sized : ∀ u ∈ units, u.Sized) (some : v.annexb ≠ [])
    (mapped : a.Mapped v.codec) (opened : a.auOpen = true) (holds : a.au = v.annexb)
    (announced : (v :: units).IsChain fun u v => u.codec ≠ v.codec → v.keyframe = true) :
    List.Forall₂ Labelled (v :: units) (framesOf a units) ↔ (v :: units).IsChain fun u v => u.codec = v.codec := by
  induction units generalizing a v with
  | nil =>
    rw [framesOf, completes_of_mapped mapped opened (by rw [holds]; exact some), holds]
    exact ⟨fun _ => .singleton v, fun _ => .cons ⟨rfl, rfl⟩ .nil⟩
  | cons u units ih =>
    obtain ⟨own, later⟩ := List.isChain_cons_cons.mp announced
    have next := mapped_next mapped own
    have done := completes_of_mapped next (by rw [setPsm_auOpen]; exact opened) (by rw [setPsm_au, holds]; exact some)
    have rest := ih (a := a.opened u) (v := u) (fun w hw => sized w (by simp [hw]))
      (List.length_pos_iff.mp (sized u (by simp)).1) next rfl rfl later
    rw [framesOf, done, setPsm_au, holds, Option.toList_some, List.singleton_append, List.forall₂_cons, rest,
      List.isChain_cons_cons]
    constructor
    · rintro ⟨⟨codec, -⟩, chain⟩
      exact ⟨codec.symm, chain⟩
    · rintro ⟨codec, chain⟩
      exact ⟨⟨codec.symm, by rw [codec]⟩, chain⟩

/-- **The labels are right exactly while the codec does not change**: an access unit is
completed by the one behind it, whose map has been read by then. -/
theorem labels_iff (units : List AccessUnit) (sized : ∀ u ∈ units, u.Sized) (announced : Announced units) :
    ∃ stream, muxStream units = .ok stream ∧ ∀ chunks : List (List UInt8), chunks.flatten = stream →
      receive {} chunks ≠ .error .refused →
      ∃ out, receive {} chunks = .ok out ∧
        (List.Forall₂ Labelled units out.delivered ↔ units.IsChain fun u v => u.codec = v.codec) := by
  refine ⟨_, muxStream_eq sized, fun chunks split accepted => ?_⟩
  obtain ⟨out, ok, delivered, -⟩ := (receive_stream sized split).resolve_left accepted
  refine ⟨out, ok, ?_⟩
  rw [delivered]
  cases units with
  | nil => exact ⟨fun _ => .nil, fun _ => .nil⟩
  | cons u units =>
    have key : u.keyframe = true := announced.1 u (by simp)
    have map : u.map = some u.codec := if_pos key
    have nothing : (Assembly.setPsm {} u.map).completes = none := by rw [map]; rfl
    have mapped : (Assembly.opened {} u).Mapped u.codec := by
      unfold Assembly.opened
      rw [map]
      exact ⟨rfl, rfl⟩
    rw [framesOf, nothing, Option.toList_none, List.nil_append]
    exact framesOf_labelled (fun v hv => sized v (by simp [hv])) (List.length_pos_iff.mp (sized u (by simp)).1) mapped
      rfl rfl announced.2

/-- An AVC parameter set and an HEVC parameter set, both announced. -/
def codecChange : List AccessUnit :=
  [⟨.avc, [0, 0, 1, 0x67], 0, true, 25000⟩, ⟨.hevc, [0, 0, 1, 0x40], 3600, true, 25000⟩]

/-- The AVC keyframe is returned as an HEVC frame that is no keyframe. -/
theorem codecChange_mislabels :
    (∀ u ∈ codecChange, u.Sized) ∧ Announced codecChange ∧
      ∃ out, receive {} [flat (streamPieces codecChange)] = .ok out ∧
        out.delivered = [{ annexb := [0, 0, 1, 0x67], pts90 := 0, keyframe := false, codec := .hevc },
          { annexb := [0, 0, 1, 0x40], pts90 := 3600, keyframe := true, codec := .hevc }] ∧
        ¬List.Forall₂ Labelled codecChange out.delivered := by
  refine ⟨by decide, ⟨by decide, .cons_cons (fun _ => rfl) (.singleton _)⟩, ?_⟩
  have run : (receive {} [flat (streamPieces codecChange)]).map Received.delivered =
      .ok [{ annexb := [0, 0, 1, 0x67], pts90 := 0, keyframe := false, codec := .hevc },
        { annexb := [0, 0, 1, 0x40], pts90 := 3600, keyframe := true, codec := .hevc }] := by decide +kernel
  cases received : receive {} [flat (streamPieces codecChange)] with
  | error fault => rw [received] at run; cases run
  | ok out =>
    rw [received] at run
    have delivered := Except.ok.inj run
    refine ⟨out, rfl, delivered, fun labelled => ?_⟩
    rw [delivered] at labelled
    exact absurd (List.forall₂_cons.mp labelled).1.1 (by decide)

theorem labels_iff_codecChange :
    ∃ out, receive {} [flat (streamPieces codecChange)] = .ok out ∧
      (List.Forall₂ Labelled codecChange out.delivered ↔ codecChange.IsChain fun u v => u.codec = v.codec) := by
  obtain ⟨stream, muxed, all⟩ := labels_iff codecChange (by decide)
    ⟨by decide, .cons_cons (fun _ => rfl) (.singleton _)⟩
  have bytes : muxStream codecChange = .ok (flat (streamPieces codecChange)) := by decide +kernel
  obtain rfl := Except.ok.inj (bytes.symm.trans muxed)
  exact all _ (by decide +kernel) (by decide +kernel)

end Rkvc.Pspack
