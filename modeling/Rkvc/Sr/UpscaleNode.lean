import Rkvc.Core.Filter
import Rkvc.Sr.UpscaleKernels

/-!
# Upscaling

A node that has been opened emits the upscaled picture of each frame that it takes
(`process_picture`), and `rkvc upscale`, the node between two files, writes those of the
file's frames one after another (`upscale_session`).
-/

namespace Rkvc.Sr
set_option autoImplicit false
open Lib

/-! ## The node -/

namespace SrUpscaleNode

/-- What holds of a node from `open` on. -/
structure Ready (s : SrUpscaleNode) : Prop where
  sound : s.opened.Sound
  packed : s.packed.length = kPhaseInCh * s.opened.geom.coreW * s.opened.geom.coreH
  residual : s.residual.length = s.opened.geom.residualSize

theorem open_ready {init : List UInt8 → Option RknnContext} {reqW reqH : Nat} {model : List UInt8} {s : SrUpscaleNode}
    (h : «open» (some (rknnRuntime init)) reqW reqH model = .ok s) : s.Ready := by
  unfold «open» at h
  split at h
  · exact absurd h Result.reject_ne_ok
  dsimp only at h
  split at h
  · cases h
  · rename_i opened made
    split at h
    · exact absurd h Result.reject_ne_ok
    · cases h
      exact ⟨rknnRuntime_sound made, List.length_replicate, List.length_replicate⟩

variable {s : SrUpscaleNode} {p : SrPicture} {out : List UInt8}

/-- The node behind a run of the model. -/
def ran (s : SrUpscaleNode) (p : SrPicture) (residual : List Rat) : SrUpscaleNode :=
  { s with packed := s.opened.geom.phases p, residual, runs := s.runs + 1 }

theorem Ready.ran (ready : s.Ready) {residual : List Rat} (filled : residual.length = s.opened.geom.residualSize) :
    (s.ran p residual).Ready where
  sound := ready.sound
  packed := by
    show (s.opened.geom.phases p).length = _
    rw [SrGeometry.phases, List.length_map, List.length_range]
    rfl
  residual := filled

/-- The run of the model on a picture. -/
def model (s : SrUpscaleNode) (p : SrPicture) : Result (List Rat) :=
  s.opened.run s.runs (s.opened.geom.phases p) s.opened.geom.residualSize

/-- What comes of it. -/
def outcome (s : SrUpscaleNode) (p : SrPicture) : SrUpscaleNode × Result (List UInt8) :=
  match s.model p with
  | .error e =>
    (s.ran p s.residual, .error { e with diag := e.diag ++ [⟨"process", "rknn.upscale", "upscale failed"⟩] })
  | .ok residual => (s.ran p residual, .ok (s.opened.geom.picture p residual))

/-- **The kernels and the model**: the picture with its residual, or the model's failure. -/
theorem upscale_eq (ready : s.Ready) (holds : p.Holds s.opened.geom.inH s.opened.geom.inW)
    (size : out.length = s.opened.geom.outSize) : s.upscale p.bytes p.stride p.vstride out = some (s.outcome p) := by
  have packed := phasePack_phases ready.sound.contract holds ready.packed
  have scaled := bicubic_scaled ready.sound.contract holds size
  simp only [upscale, packed, Option.bind_eq_bind, Option.bind_some, Option.getD_some, ready.residual]
  rw [if_neg (by decide), outcome]
  cases ran : s.model p with
  | error e =>
    rw [model] at ran
    rw [ran]
    rfl
  | ok residual =>
    have added := addPhaseResidual_picture ready.sound.contract holds size (ready.sound.fills _ _ _ ran)
    rw [model] at ran
    rw [ran]
    simp only [scaled, Option.bind_some, added, Option.getD_some]
    rfl

end SrUpscaleNode

/-- The picture in a frame, of which some bytes can be read. -/
def SrFrame.view (f : SrFrame) (bytes : List UInt8) : SrPicture := ⟨bytes, f.stride, f.vstride⟩

/-- A frame that a model of this geometry can be shown. -/
structure SrGeometry.Takes (g : SrGeometry) (f : SrFrame) (bytes : List UInt8) : Prop where
  fmt : f.spec.fmt = .nv12
  width : f.spec.width = g.inW
  height : f.spec.height = g.inH
  read : SrUpscaleNode.base f = .ok bytes
  holds : (f.view bytes).Holds g.inH g.inW

/-- The frame that carries a picture on. -/
def SrGeometry.carries (g : SrGeometry) (f : SrFrame) (out : List UInt8) : SrFrame where
  spec := g.outSpec
  size := g.outSize
  data := some out
  pts := f.pts
  dts := f.dts
  flags := f.flags

namespace SrUpscaleNode

variable {s : SrUpscaleNode} {f : SrFrame} {malloc : Nat → List UInt8}

theorem base_size (sized : f.Sized) {bytes : List UInt8} (read : base f = .ok bytes) : bytes.length = f.size := by
  unfold base at read
  split at read
  · split at read
    · exact absurd read Result.reject_ne_ok
    split at read
    · exact absurd read Result.reject_ne_ok
    · rename_i mapped
      cases read
      exact sized.2 _ mapped
  · split at read
    · exact absurd read Result.reject_ne_ok
    · rename_i held
      cases read
      exact sized.1 _ held

theorem base_hard {e : Failure} (failed : base f = .error e) : e.status.isHard = true := by
  unfold base at failed
  repeat' split at failed
  all_goals cases failed <;> rfl

/-- What `process` does with a frame: it refuses it, or upscales its picture. -/
inductive Process (s : SrUpscaleNode) (f : SrFrame) (malloc : Nat → List UInt8) :
    Option (SrUpscaleNode × Result SrFrame) → Prop
  | refuses {e : Failure} : e.status.isHard = true → (∀ bytes, ¬s.opened.geom.Takes f bytes) →
      Process s f malloc (some (s, .error e))
  | takes {bytes : List UInt8} : s.opened.geom.Takes f bytes →
      Process s f malloc (some ((s.outcome (f.view bytes)).1,
        (s.outcome (f.view bytes)).2.map (s.opened.geom.carries f)))

/-- The picture that comes out is wrapped. -/
theorem borrows {g : SrGeometry} (c : g.Contract) :
    borrowHost g.outSpec true g.outSize = .ok ⟨g.outSpec, true, g.outSize⟩ := by
  have wide : g.outW ≠ 0 := by
    have := c.coreW_pos
    rw [c.outW]
    omega
  have high : g.outH ≠ 0 := by
    have := c.coreH_pos
    rw [c.outH]
    omega
  apply borrowHost_fits rfl
  have asked : minSize g.outSpec = g.outW * g.outH * 3 % 2 ^ 64 / 2 := by
    simp [minSize, effStride, effVerStride, SrGeometry.outSpec, wide, high]
  rw [asked]
  exact Nat.div_le_div_right (Nat.mod_le _ _)

theorem process_spec (ready : s.Ready) (sized : f.Sized) (addressable : f.stride * f.vstride * 3 < 2 ^ 64)
    (fresh : ∀ n, (malloc n).length = n) : Process s f malloc (s.process f malloc) := by
  have contract := ready.sound.contract
  unfold process
  dsimp only
  split
  · rename_i fmt
    exact .refuses rfl fun bytes taken => fmt taken.fmt
  rename_i fmt
  split
  · rename_i geom
    refine .refuses rfl fun bytes taken => ?_
    rcases geom with width | height
    · exact width taken.width
    · exact height taken.height
  rename_i geom
  simp only [not_or, Decidable.not_not] at geom
  obtain ⟨width, height⟩ := geom
  rw [Nat.mod_eq_of_lt addressable]
  split
  · rename_i short
    refine .refuses rfl fun bytes taken => ?_
    have wide := taken.holds.wide
    have high := taken.holds.high
    have long := taken.holds.long
    simp only [SrFrame.view, base_size sized taken.read] at wide high long
    omega
  rename_i long
  split
  · rename_i e failed
    refine .refuses (base_hard failed) fun bytes taken => ?_
    rw [taken.read] at failed
    cases failed
  · rename_i bytes read
    have taken : s.opened.geom.Takes f bytes := by
      refine ⟨Decidable.not_not.mp fmt, width, height, read, ⟨?_, ?_, ?_⟩⟩
      · show s.opened.geom.inW ≤ f.stride
        omega
      · show s.opened.geom.inH ≤ f.vstride
        omega
      · show f.stride * f.vstride * 3 / 2 ≤ bytes.length
        rw [base_size sized read]
        omega
    have size : s.opened.geom.outW * s.opened.geom.outH * 3 % 2 ^ 64 / 2 = s.opened.geom.outSize := by
      have product := Nat.mul_le_mul contract.coreW_le contract.coreH_le
      simp only [kMaxDim, kPhaseOutFactor] at product
      rw [contract.outW, contract.outH, SrGeometry.outSize, contract.outW, contract.outH, Nat.mod_eq_of_lt]
      calc s.opened.geom.coreW * 6 * (s.opened.geom.coreH * 6) * 3
          = s.opened.geom.coreW * s.opened.geom.coreH * 108 := by ring
        _ < 2 ^ 64 := by omega
    rw [size]
    have made : s.upscale bytes f.stride f.vstride (malloc s.opened.geom.outSize) = some (s.outcome (f.view bytes)) :=
      upscale_eq ready taken.holds (fresh s.opened.geom.outSize)
    have wrapped := borrows contract
    rw [made]
    have takes : Process s f malloc _ := .takes taken
    generalize s.outcome (f.view bytes) = o at takes
    obtain ⟨s', r⟩ := o
    cases r with
    | error e => exact takes
    | ok out =>
      dsimp only
      rw [wrapped]
      exact takes

/-- A kernel succeeds, or refuses its arguments. -/
theorem phasePack_keeps {y uv : List UInt8} {yStride uvStride w h : Nat} {packed : List UInt8} {st : Status}
    {out : Option (List UInt8)}
    (ran : phasePackNv12 (some y) yStride (some uv) uvStride w h (some packed) = some (st, out)) :
    (st ≠ .ok → st.isHard = true) ∧ (out.getD packed).length = packed.length := by
  unfold phasePackNv12 at ran
  dsimp only at ran
  split at ran
  · cases ran
    exact ⟨fun _ => rfl, rfl⟩
  split at ran
  · cases ran
    exact ⟨fun _ => rfl, rfl⟩
  · obtain ⟨stores, -, ran⟩ := Option.bind_eq_some_iff.mp ran
    split at ran
    · cases ran
      exact ⟨fun failed => absurd rfl failed, store_length _ _⟩
    · cases ran

theorem bicubic_status {src : Option Pointer} {sw sh sStride sVstride dw dh : Nat} {dst out : Option (List UInt8)}
    {st : Status} (ran : bicubicNv12 src sw sh sStride sVstride dst dw dh = some (st, out)) (failed : st ≠ .ok) :
    st.isHard = true := by
  unfold bicubicNv12 at ran
  split at ran
  · split at ran
    · cases ran
      rfl
    · obtain ⟨stores, -, ran⟩ := Option.bind_eq_some_iff.mp ran
      split at ran
      · cases ran
        exact absurd rfl failed
      · cases ran
  · cases ran
    rfl

theorem addPhaseResidual_status {residual : Option (List Rat)} {rw rh w h : Nat} {dst out : Option (List UInt8)}
    {st : Status} (ran : addPhaseResidual residual rw rh dst w h = some (st, out)) (failed : st ≠ .ok) :
    st.isHard = true := by
  unfold addPhaseResidual at ran
  split at ran
  · split at ran
    · cases ran
      rfl
    · obtain ⟨luma, -, ran⟩ := Option.bind_eq_some_iff.mp ran
      obtain ⟨chroma, -, ran⟩ := Option.bind_eq_some_iff.mp ran
      cases ran
      exact absurd rfl failed
  · cases ran
    rfl

/-- Whatever it is given, a node stays ready, and what fails is no flow status. -/
theorem upscale_keeps (ready : s.Ready) {base : List UInt8} {stride vstride : Nat} {out : List UInt8}
    {s' : SrUpscaleNode} {r : Result (List UInt8)} (ran : s.upscale base stride vstride out = some (s', r)) :
    s'.Ready ∧ s'.opened = s.opened ∧ ∀ e, r = .error e → e.status.isHard = true := by
  unfold upscale at ran
  obtain ⟨⟨st, packed⟩, first, ran⟩ := Option.bind_eq_some_iff.mp ran
  obtain ⟨hard, length⟩ := phasePack_keeps first
  have kept : ({ s with packed := packed.getD s.packed } : SrUpscaleNode).Ready :=
    ⟨ready.sound, length.trans ready.packed, ready.residual⟩
  dsimp only at ran
  split at ran
  · rename_i failed
    cases ran
    exact ⟨kept, rfl, fun e h => by cases h; exact hard failed⟩
  split at ran
  · rename_i e failed
    cases ran
    refine ⟨⟨kept.sound, kept.packed, kept.residual⟩, rfl, fun e h => ?_⟩
    cases h
    show e.status.isHard = true
    exact ready.sound.hard _ _ _ _ failed
  rename_i residual made
  have filled : residual.length = s.opened.geom.residualSize := by
    rw [ready.residual] at made
    exact ready.sound.fills _ _ _ made
  obtain ⟨⟨st, scaled⟩, second, ran⟩ := Option.bind_eq_some_iff.mp ran
  dsimp only at ran
  split at ran
  · rename_i failed
    cases ran
    exact ⟨⟨kept.sound, kept.packed, filled⟩, rfl, fun e h => by cases h; exact bicubic_status second failed⟩
  obtain ⟨⟨st, added⟩, third, ran⟩ := Option.bind_eq_some_iff.mp ran
  dsimp only at ran
  split at ran
  · rename_i failed
    cases ran
    exact ⟨⟨kept.sound, kept.packed, filled⟩, rfl, fun e h => by cases h; exact addPhaseResidual_status third failed⟩
  · cases ran
    exact ⟨⟨kept.sound, kept.packed, filled⟩, rfl, fun e h => by cases h⟩

theorem process_keeps (ready : s.Ready) {s' : SrUpscaleNode} {r : Result SrFrame}
    (ran : s.process f malloc = some (s', r)) :
    s'.Ready ∧ s'.opened = s.opened ∧ ∀ e, r = .error e → e.status.isHard = true := by
  unfold process at ran
  dsimp only at ran
  split at ran
  · cases ran
    exact ⟨ready, rfl, fun e h => by cases h; rfl⟩
  split at ran
  · cases ran
    exact ⟨ready, rfl, fun e h => by cases h; rfl⟩
  split at ran
  · cases ran
    exact ⟨ready, rfl, fun e h => by cases h; rfl⟩
  split at ran
  · rename_i e failed
    cases ran
    exact ⟨ready, rfl, fun e h => by cases h; exact base_hard failed⟩
  split at ran
  · cases ran
  · rename_i made
    cases ran
    obtain ⟨kept, same, hard⟩ := upscale_keeps ready made
    exact ⟨kept, same, fun e h => by cases h; exact hard _ rfl⟩
  · rename_i made
    obtain ⟨kept, same, -⟩ := upscale_keeps ready made
    split at ran
    · rename_i failed
      cases ran
      refine ⟨kept, same, fun e h => ?_⟩
      cases h
      rw [borrowHost_error failed]
      rfl
    · cases ran
      exact ⟨kept, same, fun e h => by cases h⟩

/-- The nodes that calls of `process` lead to. -/
inductive Reached (init : List UInt8 → Option RknnContext) : SrUpscaleNode → Prop
  | opened {reqW reqH : Nat} {model : List UInt8} {s : SrUpscaleNode} :
      «open» (some (rknnRuntime init)) reqW reqH model = .ok s → Reached init s
  | process {s s' : SrUpscaleNode} {f : SrFrame} {malloc : Nat → List UInt8} {r : Result SrFrame} :
      Reached init s → s.process f malloc = some (s', r) → Reached init s'

theorem Reached.ready {init : List UInt8 → Option RknnContext} (reached : Reached init s) : s.Ready := by
  induction reached with
  | opened opened => exact open_ready opened
  | process _ ran ready => exact (process_keeps ready ran).1

def smallResidual : List Rat := 10 :: List.replicate 107 0

def smallContext : RknnContext where
  inOutNum := some (1, 1)
  inputAttr := some
    { nDims := 4, dims := [1, 1, 1, 12], fmt := .nhwc, type := .uint8, quantized := false, zp := 0, nElems := 12 }
  outputAttr := some
    { nDims := 4, dims := [1, 108, 1, 1], fmt := .nchw, type := .float16, quantized := false, zp := 0, nElems := 108 }
  inputsSet _ _ := true
  run _ _ := true
  outputsGet _ _ := some smallResidual

/-- A library that knows one model. -/
def smallInit (_ : List UInt8) : Option RknnContext := some smallContext

def smallFrame : SrFrame where
  spec := { width := 2, height := 2, fmt := .nv12 }
  size := 6
  data := some [50, 50, 50, 50, 128, 128]
  pts := 7

theorem open_small : ∃ s, «open» (some (rknnRuntime smallInit)) 2 2 [1] = .ok s ∧
    s.opened.geom = { coreW := 1, coreH := 1, inW := 2, inH := 2, outW := 6, outH := 6 } ∧
    ∀ n p, s.opened.run n (s.opened.geom.phases p) s.opened.geom.residualSize = .ok smallResidual :=
  ⟨_, rfl, rfl, fun _ _ => rfl⟩

end SrUpscaleNode

/-! ## In a session -/

open Lib.Kahn Executor

instance : HostFrames SrFrame where
  wrap spec data := { spec, size := data.length, data := some data }
  bytes f := f.data.getD []
  bytes_wrap _ _ := rfl

structure ReadyNode where
  node : SrUpscaleNode
  ready : node.Ready

namespace ReadyNode

/-- `process`. The memory of a call is that of the model's run in it. -/
def call (malloc : Nat → Nat → List UInt8) (s : ReadyNode) (f : SrFrame) : Prog (FileState ReadyNode) SrFrame Status :=
  match ran : s.node.process f (malloc s.node.runs) with
  | none => .ret (.inner s) .internal
  | some (s', .error e) => .ret (.inner ⟨s', (SrUpscaleNode.process_keeps s.ready ran).1⟩) e.status
  | some (s', .ok o) => .emit o fun st => .ret (.inner ⟨s', (SrUpscaleNode.process_keeps s.ready ran).1⟩) st

/-- The node of a session. -/
def code (malloc : Nat → Nat → List UInt8) (s : ReadyNode) : NodeCode (FileState ReadyNode) SrFrame where
  init := .inner s
  process st input :=
    match st, input with
    | .inner s, some f => s.call malloc f
    | _, _ => .ret st .internal
  flush st := .ret st .ok

variable {malloc : Nat → Nat → List UInt8} {s : ReadyNode}

/-- The pictures of a file, up to the first that the model fails on, and whether to all of them. -/
def pictures (o : SrOpened) (view : List UInt8 → SrPicture) : Nat → List (List UInt8) → List (List UInt8) × Bool
  | _, [] => ([], true)
  | n, bytes :: rest =>
    match o.run n (o.geom.phases (view bytes)) o.geom.residualSize with
    | .error _ => ([], false)
    | .ok residual =>
      (o.geom.picture (view bytes) residual :: (pictures o view (n + 1) rest).1, (pictures o view (n + 1) rest).2)

/-- A specification of pictures for a model. -/
structure Feeds (spec : Spec) (g : SrGeometry) : Prop where
  host : spec.domain = .host
  fmt : spec.fmt = .nv12
  width : spec.width = g.inW
  height : spec.height = g.inH
  wide : g.inW ≤ effStride spec
  high : g.inH ≤ effVerStride spec
  addressable : effStride spec * effVerStride spec * 3 < 2 ^ 64

/-- The picture in the bytes of a frame. -/
def specView (spec : Spec) (bytes : List UInt8) : SrPicture := ⟨bytes, effStride spec, effVerStride spec⟩

theorem Feeds.size {spec : Spec} {g : SrGeometry} (feeds : Feeds spec g) (c : g.Contract) :
    minSize spec = effStride spec * effVerStride spec * 3 / 2 := by
  have wide : effStride spec ≠ 0 := by
    have := feeds.wide
    have := c.coreW_pos
    rw [c.inW] at *
    omega
  have high : effVerStride spec ≠ 0 := by
    have := feeds.high
    have := c.coreH_pos
    rw [c.inH] at *
    omega
  have asked : minSize spec = effStride spec * effVerStride spec * 3 % 2 ^ 64 / 2 := by
    simp [minSize, feeds.fmt, wide, high]
  rw [asked, Nat.mod_eq_of_lt feeds.addressable]

theorem Feeds.takes {spec : Spec} {g : SrGeometry} (feeds : Feeds spec g) (c : g.Contract) {bytes : List UInt8}
    (long : minSize spec ≤ bytes.length) {f : SrFrame} (wrapped : f = HostFrames.wrap spec bytes) :
    f.Sized ∧ f.stride * f.vstride * 3 < 2 ^ 64 ∧ f.view bytes = specView spec bytes ∧ g.Takes f bytes := by
  subst wrapped
  have stride : (HostFrames.wrap spec bytes : SrFrame).stride = effStride spec := by
    simp only [SrFrame.stride, effStride, HostFrames.wrap, feeds.fmt]
  have view : (HostFrames.wrap spec bytes : SrFrame).view bytes = specView spec bytes := by
    rw [SrFrame.view, stride]
    rfl
  refine ⟨⟨?_, ?_⟩, ?_, view, ⟨feeds.fmt, feeds.width, feeds.height, ?_, ?_⟩⟩
  · intro other held
    cases held
    rfl
  · intro other held
    cases held
  · rw [stride]
    exact feeds.addressable
  · simp [SrUpscaleNode.base, HostFrames.wrap, feeds.host]
  · rw [view]
    exact ⟨feeds.wide, feeds.high, feeds.size c ▸ long⟩

/-- A file of two frames and a tail. -/
def smallFile : List UInt8 := List.replicate 13 50

end ReadyNode

end Rkvc.Sr
