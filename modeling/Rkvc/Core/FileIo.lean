import Rkvc.Core.Completion
import Rkvc.Core.Frame

/-!
# The file nodes

`FileSourceNode` cuts a file into frames of `min_size` bytes and drops a tail that
is shorter, or hands a bitstream on whole; `FileSinkNode` writes what it is given.
What `fwrite` takes is up to the disk: `disk k n` of the `n` bytes of its call `k`.
-/

namespace Rkvc
set_option autoImplicit false

open Executor Lib.Kahn

/-- Frames in host memory. A frame that the CPU cannot read has no bytes. -/
class HostFrames (α : Type) where
  wrap : Spec → List UInt8 → α
  bytes : α → List UInt8
  bytes_wrap : ∀ spec data, bytes (wrap spec data) = data

/-- The state of a node of a session between files. -/
structure FileSourceNode where
  spec : Spec
  frameSize : Nat := 0
  /-- What `fread` has not returned yet. -/
  rest : List UInt8 := []
  stream : Option (List UInt8) := none
  deriving DecidableEq, Repr

structure FileSinkNode where
  calls : Nat := 0
  written : List UInt8 := []
  deriving DecidableEq, Repr

inductive FileState (τ : Type) where
  | source (s : FileSourceNode)
  | sink (s : FileSinkNode)
  | inner (s : τ)

namespace FileSourceNode

def kMaxStream : Nat := 64 * 2 ^ 20

/-- `open_stream`, of a file that can be sought and memory for its bytes. -/
def openStream (path : String) (spec : Spec) : Option (List UInt8) → Result FileSourceNode
  | none => Result.reject .io "open" path "cannot read file"
  | some file =>
    if file.length = 0 ∨ file.length > kMaxStream then Result.reject .format "open" path "bad stream size"
    else .ok { spec, stream := some file }

/-- `open`; the file, if it can be read. -/
def «open» (path : String) (spec : Spec) (file : Option (List UInt8)) : Result FileSourceNode :=
  let frameSize := minSize spec
  if frameSize = 0 then
    if spec.fmt ≠ .bitstream then Result.reject .invalid "open" "file.source" "unframed spec"
    else openStream path spec file
  else
    match file with
    | none => Result.reject .io "open" path "cannot read file"
    | some rest => .ok { spec, frameSize, rest }

variable {τ α : Type} [HostFrames α]

/-- The end of `process`: `borrow_host`, and what `emit` returns. -/
def deliver (s : FileSourceNode) (bytes : List UInt8) : Prog (FileState τ) α Status :=
  match borrowHost s.spec true bytes.length with
  | .error e => .ret (.source s) e.status
  | .ok _ => .emit (HostFrames.wrap s.spec bytes) fun e => .ret (.source s) e

/-- `process`. Behind a stream there is no file, and `fread` is asked for nothing. -/
def process (s : FileSourceNode) : Prog (FileState τ) α Status :=
  match s.stream with
  | some bytes => { s with stream := none }.deliver bytes
  | none =>
    let buf := s.rest.take s.frameSize
    let s' := { s with rest := s.rest.drop s.frameSize }
    if buf.length = 0 then .ret (.source s') .eof
    else if buf.length < s.frameSize then .ret (.source s') .eof
    else s'.deliver buf

end FileSourceNode

namespace FileSinkNode

variable {α : Type} [HostFrames α]

/-- `process`, of a frame. -/
def process (disk : Nat → Nat → Nat) (s : FileSinkNode) (input : α) : FileSinkNode × Status :=
  let data := HostFrames.bytes input
  if data = [] then (s, .format)
  else
    let w := min (disk s.calls data.length) data.length
    ({ calls := s.calls + 1, written := s.written ++ data.take w }, if w ≠ data.length then .io else .ok)

end FileSinkNode

section Nodes

variable {τ α : Type} [HostFrames α]

def fileSource (opened : FileSourceNode) : NodeCode (FileState τ) α where
  init := .source opened
  process st _ :=
    match st with
    | .source s => s.process
    | _ => .ret st .internal
  flush st := .ret st .ok

def fileSink (disk : Nat → Nat → Nat) : NodeCode (FileState τ) α where
  init := .sink {}
  process st input :=
    match st, input with
    | .sink s, some f => .ret (.sink (s.process disk f).1) (s.process disk f).2
    | .sink _, none => .ret st .format
    | _, _ => .ret st .internal
  flush st := .ret st .ok

end Nodes

/-! ## What is in a file -/

/-- The whole frames of a file. -/
def wholeFrames (size : Nat) (file : List UInt8) : List (List UInt8) :=
  (List.range (file.length / size)).map fun i => (file.drop (i * size)).take size

theorem wholeFrames_none {size : Nat} {file : List UInt8} (short : file.length < size ∨ size = 0) :
    wholeFrames size file = [] := by
  have none : file.length / size = 0 := by
    rcases short with short | rfl
    · exact Nat.div_eq_of_lt short
    · exact Nat.div_zero _
  rw [wholeFrames, none]
  rfl

theorem wholeFrames_cons {size : Nat} {file : List UInt8} (pos : 0 < size) (long : size ≤ file.length) :
    wholeFrames size file = file.take size :: wholeFrames size (file.drop size) := by
  have one_more : file.length / size = (file.length - size) / size + 1 := Nat.div_eq_sub_div pos long
  rw [wholeFrames, wholeFrames, one_more, List.length_drop, List.range_succ_eq_map, List.map_cons, List.map_map,
    Nat.zero_mul, List.drop_zero]
  congr 1
  refine List.map_congr_left fun i _ => ?_
  simp only [Function.comp, List.drop_drop]
  rw [Nat.succ_mul, Nat.add_comm]

/-- A file without the tail that makes no frame. -/
theorem wholeFrames_flatten {size : Nat} {file : List UInt8} :
    (wholeFrames size file).flatten = file.take (file.length / size * size) := by
  by_cases pos : 0 < size
  · induction hn : file.length / size generalizing file with
    | zero => rw [wholeFrames, hn, Nat.zero_mul]; rfl
    | succ n ih =>
      have long : size ≤ file.length := by
        by_contra short
        rw [Nat.div_eq_of_lt (Nat.lt_of_not_le short)] at hn
        cases hn
      have rest : (file.drop size).length / size = n := by
        rw [List.length_drop]
        have := Nat.div_eq_sub_div pos long
        omega
      rw [wholeFrames_cons pos long, List.flatten_cons, ih rest, ← List.take_add]
      congr 1
      rw [Nat.succ_mul, Nat.add_comm]
  · obtain rfl : size = 0 := by omega
    rw [wholeFrames_none (.inr rfl)]
    simp

/-- The frames that an opened source will deliver. -/
def FileSourceNode.frames (s : FileSourceNode) : List (List UInt8) :=
  s.stream.toList ++ wholeFrames s.frameSize s.rest

/-- The frames of a file. -/
def fileFrames (spec : Spec) (file : List UInt8) : List (List UInt8) :=
  if minSize spec = 0 then [file] else wholeFrames (minSize spec) file

theorem frames_open {path : String} {spec : Spec} {file : List UInt8} {opened : FileSourceNode}
    (h : FileSourceNode.open path spec (some file) = .ok opened) :
    opened.spec = spec ∧ opened.frames = fileFrames spec file := by
  unfold FileSourceNode.open FileSourceNode.openStream at h
  unfold fileFrames
  dsimp only at h
  split at h
  · rename_i unframed
    rw [if_pos unframed]
    split at h
    · exact absurd h Result.reject_ne_ok
    · split at h
      · exact absurd h Result.reject_ne_ok
      · cases h
        refine ⟨rfl, ?_⟩
        rw [FileSourceNode.frames, wholeFrames_none (.inr rfl)]
        rfl
  · rename_i framed
    rw [if_neg framed]
    cases h
    exact ⟨rfl, List.nil_append _⟩

/-- A frame that is long enough is wrapped. -/
theorem borrowHost_fits {spec : Spec} {size : Nat} (host : spec.domain = .host) (long : minSize spec ≤ size) :
    borrowHost spec true size = .ok ⟨spec, true, size⟩ := by
  by_cases raw : spec.fmt = .unknown
  · simp [borrowHost, host, raw]
  · exact (borrowHost_ok raw).mpr ⟨host, rfl, long, rfl⟩

/-- The frames of a file are long enough. -/
theorem fileFrames_long {spec : Spec} {file bytes : List UInt8} (listed : bytes ∈ fileFrames spec file) :
    minSize spec ≤ bytes.length := by
  unfold fileFrames at listed
  split at listed
  · rename_i unframed
    rw [unframed]
    exact Nat.zero_le _
  · obtain ⟨i, hi, rfl⟩ := List.mem_map.mp listed
    have whole := Nat.div_mul_le_self file.length (minSize spec)
    have inside : (i + 1) * minSize spec ≤ file.length / minSize spec * minSize spec :=
      Nat.mul_le_mul_right _ (List.mem_range.mp hi)
    rw [List.length_take, List.length_drop]
    rw [Nat.succ_mul] at inside
    omega

/-! ## The nodes in a session -/

theorem borrowHost_error {spec : Spec} {data : Bool} {size : Nat} {e : Failure}
    (h : borrowHost spec data size = .error e) : e.status = .invalid := by
  unfold borrowHost at h
  dsimp only at h
  repeat' split at h
  all_goals cases h <;> rfl

section Nodes

variable {τ α : Type} [HostFrames α]

/-- What a call of the source can do: it delivers the next frame, or fails to; or none is left. -/
inductive SourceCall (s : FileSourceNode) : Prog (FileState τ) α Status → Prop
  | frame {s' : FileSourceNode} {bytes : List UInt8} : s.frames = bytes :: s'.frames → s'.spec = s.spec →
      SourceCall s (.emit (HostFrames.wrap s.spec bytes) fun e => .ret (.source s') e)
  | refused {s' : FileSourceNode} {bytes : List UInt8} {e : Failure} : bytes ∈ s.frames →
      borrowHost s.spec true bytes.length = .error e → SourceCall s (.ret (.source s') .invalid)
  | spent {s' : FileSourceNode} : s.frames = [] → SourceCall s (.ret (.source s') .eof)

theorem sourceCall_deliver {s s' : FileSourceNode} {bytes : List UInt8} (frames : s.frames = bytes :: s'.frames)
    (spec : s'.spec = s.spec) : SourceCall s (s'.deliver bytes : Prog (FileState τ) α Status) := by
  unfold FileSourceNode.deliver
  cases borrowed : borrowHost s'.spec true bytes.length with
  | error e =>
    dsimp only
    rw [borrowHost_error borrowed]
    rw [spec] at borrowed
    exact .refused (by rw [frames]; exact List.mem_cons_self) borrowed
  | ok frame =>
    dsimp only
    rw [spec]
    exact .frame frames spec

theorem process_spec (s : FileSourceNode) : SourceCall s (s.process : Prog (FileState τ) α Status) := by
  unfold FileSourceNode.process
  cases held : s.stream with
  | some bytes => exact sourceCall_deliver (by simp [FileSourceNode.frames, held]) rfl
  | none =>
    have frames : s.frames = wholeFrames s.frameSize s.rest := by rw [FileSourceNode.frames, held]; rfl
    simp only [List.length_take]
    split
    · rename_i empty
      exact .spent (frames.trans (wholeFrames_none (by omega)))
    split
    · rename_i short
      exact .spent (frames.trans (wholeFrames_none (by omega)))
    · rename_i some long
      exact sourceCall_deliver (frames.trans (wholeFrames_cons (by omega) (by omega))) rfl

theorem fileSource_returns (opened : FileSourceNode) (st : FileState τ) (f : Option α) :
    Returns (fun e => okOrHard e ∨ e = .eof) ((fileSource opened : NodeCode (FileState τ) α).process st f) := by
  cases st with
  | source s =>
    have call := process_spec (τ := τ) (α := α) s
    show Returns _ (s.process : Prog (FileState τ) α Status)
    generalize (s.process : Prog (FileState τ) α Status) = p at call ⊢
    cases call with
    | frame => exact fun e he => .inl he
    | refused => exact .inl (.inr rfl)
    | spent => exact .inr rfl
  | _ => exact .inl (.inr rfl)

theorem sink_status (disk : Nat → Nat → Nat) (s : FileSinkNode) (f : α) : okOrHard (s.process disk f).2 := by
  unfold FileSinkNode.process
  dsimp only
  split
  · exact .inr rfl
  split
  · exact .inr rfl
  · exact .inl rfl

theorem fileSink_returns (disk : Nat → Nat → Nat) (st : FileState τ) (f : α) :
    Returns okOrHard ((fileSink disk : NodeCode (FileState τ) α).process st (some f)) := by
  cases st with
  | sink s => exact sink_status disk s f
  | _ => exact .inr rfl

theorem fileSource_quiet (opened : FileSourceNode) (st : FileState τ) (f : Option α) :
    Quiet ((fileSource opened : NodeCode (FileState τ) α).process st f) := by
  cases st with
  | source s =>
    have call := process_spec (τ := τ) (α := α) s
    show Quiet (s.process : Prog (FileState τ) α Status)
    generalize (s.process : Prog (FileState τ) α Status) = p at call ⊢
    cases call with
    | frame => exact fun _ => trivial
    | refused => trivial
    | spent => trivial
  | _ => trivial

end Nodes

end Rkvc
