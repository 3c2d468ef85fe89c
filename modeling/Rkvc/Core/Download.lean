import Mathlib.Tactic.Ring
import Rkvc.Core.Frame
import Rkvc.Lib.Copy

/-!
# The download of a mapped frame

`DownloadNode::copy` packs the rows of a frame in a mapped dma-buf into host memory.
A byte read outside of the mapping, or written outside of the memory, is a fault
(`none`). The end of a plane is a `size_t`, and so is `min_size`: the copy does what
it is for exactly where neither of the two goes wrong by a whole `2^64`
(`copy_right_iff`).
-/

namespace Rkvc.DownloadNode
set_option autoImplicit false
open Lib

/-- `malloc`, with whatever the memory holds. -/
structure Heap where
  malloc : Nat → Option (List UInt8)
  size : ∀ n bytes, malloc n = some bytes → bytes.length = n

/-- What is read of the frame in the dma-buf. -/
structure DmabufFrame where
  spec : Spec
  pts : Int
  dts : Int
  flags : UInt32
  deriving DecidableEq, Repr

structure HostFrame where
  spec : Spec
  data : List UInt8
  pts : Int
  dts : Int
  flags : UInt32
  deriving DecidableEq, Repr

/-- What a call returns, and the frames it has emitted. -/
structure Outcome where
  status : Status
  diag : Diag := []
  emitted : List HostFrame := []
  deriving DecidableEq, Repr

/-- `fail`. -/
def fail (status : Status) (reason : String) : Outcome := { status, diag := [⟨"process", "core.download", reason⟩] }

/-- One packed plane: lines of `lineBytes`, from `srcStride * verOff`. -/
structure Plane where
  lines : Nat
  lineBytes : Nat
  verOff : Nat
  deriving DecidableEq, Repr

/-- `even_extent_ok`. -/
def evenExtentOk (s : Spec) : Bool :=
  match s.fmt with
  | .nv12 | .nv21 | .p010 => s.width % 2 = 0 && s.height % 2 = 0
  | .nv16 => s.width % 2 = 0
  | _ => true

/-- `plan_layout`, with `uint32_t` products and sums. -/
def planLayout (s : Spec) : Option (List Plane) :=
  let w := s.width
  let h := s.height
  let uvH := (h + 1) % 2 ^ 32 / 2
  match s.fmt with
  | .nv12 | .nv21 | .p010 =>
    let b := if s.fmt = .p010 then 2 else 1
    some [⟨h, w * b % 2 ^ 32, 0⟩, ⟨uvH, w * b % 2 ^ 32, effVerStride s⟩]
  | .nv16 => some [⟨h, w, 0⟩, ⟨h, w, effVerStride s⟩]
  | .rgb24 => some [⟨h, w * 3 % 2 ^ 32, 0⟩]
  | _ => none

/-- The rows of a plane, from line `l` on. -/
def copyLines (map : List UInt8) (start srcStride dstStride lineBytes : Nat) :
    Nat → Nat → List UInt8 → Nat → Option (List UInt8 × Nat)
  | 0, _, out, dstOff => some (out, dstOff)
  | lines + 1, l, out, dstOff =>
    (memcpy out map dstOff (start + l * srcStride) lineBytes).bind fun out =>
      copyLines map start srcStride dstStride lineBytes lines (l + 1) out ((dstOff + dstStride) % 2 ^ 64)

/-- The loop over the planes; each has a line. -/
def copyPlanes (map : List UInt8) (srcStride dstStride : Nat) :
    List Plane → List UInt8 → Nat → Option (Except Outcome (List UInt8 × Nat))
  | [], out, dstOff => some (.ok (out, dstOff))
  | p :: planes, out, dstOff =>
    if p.lineBytes > srcStride then some (.error (fail .invalid "stride smaller than width"))
    else
      let start := srcStride * p.verOff
      let finish := (start + (p.lines - 1) * srcStride + p.lineBytes) % 2 ^ 64
      if finish > map.length then some (.error (fail .invalid "plane exceeds mapping"))
      else
        (copyLines map start srcStride dstStride p.lineBytes p.lines 0 out dstOff).bind fun next =>
          copyPlanes map srcStride dstStride planes next.1 next.2

/-- `finish`. -/
def finish (sink : HostFrame → Status) (input : DmabufFrame) (d : Spec) (dst : List UInt8) : Outcome :=
  match borrowHost d true dst.length with
  | .error e => ⟨e.status, e.diag ++ [⟨"process", "core.download", "host wrap failed"⟩], []⟩
  | .ok _ =>
    let out : HostFrame := ⟨d, dst, input.pts, input.dts, input.flags⟩
    { status := sink out, emitted := [out] }

/-- `finish_flat`. -/
def finishFlat (heap : Heap) (sink : HostFrame → Status) (input : DmabufFrame) (map : List UInt8) : Option Outcome :=
  match heap.malloc map.length with
  | none => some (fail .nomem "host alloc failed")
  | some dst =>
    (memcpy dst map 0 0 map.length).map fun dst => finish sink input { fmt := .bitstream, domain := .host } dst

/-- The specification of the packed frame. -/
def hostSpec (s : Spec) : Spec := { width := s.width, height := s.height, fmt := s.fmt, domain := .host }

/-- **`DownloadNode::copy`**; `sink` is what `emit` returns. -/
def copy (heap : Heap) (sink : HostFrame → Status) (input : DmabufFrame) (map : List UInt8) : Option Outcome :=
  let s := input.spec
  if s.fmt = .bitstream then finishFlat heap sink input map
  else if s.width = 0 ∨ s.height = 0 then some (fail .invalid "unresolved extent")
  else if !evenExtentOk s then some (fail .unsupported "odd extent for subsampled format")
  else match planLayout s with
    | none => some (fail .unsupported "pixel format not handled")
    | some planes =>
      let d := hostSpec s
      let need := minSize d
      if need = 0 then some (fail .unsupported "pixel format not handled")
      else match heap.malloc need with
        | none => some (fail .nomem "host alloc failed")
        | some dst =>
          (copyPlanes map (effStride s) (effStride d) planes dst 0).map fun
            | .error failed => failed
            | .ok (out, dstOff) =>
              if dstOff ≠ need then fail .internal "plane accounting mismatch" else finish sink input d out

/-! ## What the copy is for -/

/-- **A linear frame in a mapped dma-buf**, of a format whose rows are packed. -/
structure MappedFrame where
  input : DmabufFrame
  map : List UInt8
  domain : input.spec.domain = .dmabuf
  linear : isLinear input.spec = true
  fmt : input.spec.fmt ∈ [PixelFormat.nv12, .nv21, .p010, .nv16, .rgb24]
  width : input.spec.width * 3 < 2 ^ 32
  height : input.spec.height < 2 ^ 32
  stride : input.spec.stride < 2 ^ 32
  verStride : input.spec.verStride < 2 ^ 32
  mapped : map.length < 2 ^ 64

/-- The bytes of a row. -/
def rowBytes (s : Spec) : Nat :=
  match s.fmt with
  | .p010 => 2 * s.width
  | .rgb24 => 3 * s.width
  | _ => s.width

/-- The rows of chroma. -/
def chromaRows (s : Spec) : Nat :=
  match s.fmt with
  | .nv12 | .nv21 | .p010 => s.height / 2
  | .nv16 => s.height
  | _ => 0

/-- **The packed frame**: its rows are those of the mapped planes, end to end. -/
structure Packed (i : MappedFrame) (frame : HostFrame) : Prop where
  spec : frame.spec = hostSpec i.input.spec
  size : frame.data.length = minSize frame.spec
  rows : frame.data.length = (i.input.spec.height + chromaRows i.input.spec) * rowBytes i.input.spec
  luma : ∀ r < i.input.spec.height, ∀ x < rowBytes i.input.spec,
    effStride i.input.spec * r + x < i.map.length ∧
      frame.data[r * rowBytes i.input.spec + x]? = i.map[effStride i.input.spec * r + x]?
  chroma : ∀ r < chromaRows i.input.spec, ∀ x < rowBytes i.input.spec,
    effStride i.input.spec * (effVerStride i.input.spec + r) + x < i.map.length ∧
      frame.data[(i.input.spec.height + r) * rowBytes i.input.spec + x]? =
        i.map[effStride i.input.spec * (effVerStride i.input.spec + r) + x]?
  stamps : frame.pts = i.input.pts ∧ frame.dts = i.input.dts ∧ frame.flags = i.input.flags

/-- **What a call does**: it has no fault, and its accounts are right; it fails and emits nothing, or emits
the packed frame. -/
def CopiesRight (heap : Heap) (sink : HostFrame → Status) (i : MappedFrame) : Prop :=
  ∃ outcome, copy heap sink i.input i.map = some outcome ∧
    ⟨"process", "core.download", "plane accounting mismatch"⟩ ∉ outcome.diag ∧
    (outcome.status.isHard = true ∧ outcome.emitted = [] ∨
      ∃ frame, outcome.emitted = [frame] ∧ outcome.status = sink frame ∧ Packed i frame)

/-- The rows of the first plane are copied. -/
structure Reaches (heap : Heap) (i : MappedFrame) : Prop where
  extent : i.input.spec.width ≠ 0 ∧ i.input.spec.height ≠ 0
  even : evenExtentOk i.input.spec = true
  room : minSize (hostSpec i.input.spec) ≠ 0 ∧ (heap.malloc (minSize (hostSpec i.input.spec))).isSome
  stride : rowBytes i.input.spec ≤ effStride i.input.spec
  luma : effStride i.input.spec * (i.input.spec.height - 1) + rowBytes i.input.spec ≤ i.map.length

/-- Where the chroma ends in the mapping. -/
def chromaEnd (s : Spec) : Nat := effStride s * (effVerStride s + (chromaRows s - 1)) + rowBytes s

/-- The size of a P010 frame and the end of the chroma are right as `size_t`s, as far as they are compared. -/
structure Exact (i : MappedFrame) : Prop where
  size : i.input.spec.fmt = .p010 → 6 * (i.input.spec.width * i.input.spec.height) < 2 ^ 64
  chroma : i.input.spec.fmt ≠ .rgb24 →
    chromaEnd i.input.spec < 2 ^ 64 ∨ i.map.length + 2 ^ 64 < chromaEnd i.input.spec

/-! ## The four helpers -/

namespace MappedFrame

variable (i : MappedFrame)

/-- A frame has a raw format. -/
theorem raw : i.input.spec.fmt ≠ .bitstream ∧ i.input.spec.fmt ≠ .unknown := by
  have fmt := i.fmt
  constructor
  · intro flat
    rw [flat] at fmt
    exact absurd fmt (by decide)
  · intro unknown
    rw [unknown] at fmt
    exact absurd fmt (by decide)

theorem effStride_host : effStride (hostSpec i.input.spec) = rowBytes i.input.spec := by
  have width := i.width
  have fmt := i.fmt
  generalize i.input.spec = s at width fmt ⊢
  obtain ⟨w, h, fmt, domain, stride, verStride, modifier⟩ := s
  dsimp only at width fmt
  simp only [List.mem_cons, List.not_mem_nil, or_false] at fmt
  obtain rfl | rfl | rfl | rfl | rfl := fmt
  · rfl
  · rfl
  · have double : w * 2 % 2 ^ 32 = 2 * w := by omega
    exact double
  · rfl
  · have triple : w * 3 % 2 ^ 32 = 3 * w := by omega
    exact triple

/-- The planes have the rows of the packed frame. -/
theorem planLayout_eq (even : evenExtentOk i.input.spec = true) :
    planLayout i.input.spec = some (⟨i.input.spec.height, rowBytes i.input.spec, 0⟩ ::
      if i.input.spec.fmt = .rgb24 then []
      else [⟨chromaRows i.input.spec, rowBytes i.input.spec, effVerStride i.input.spec⟩]) := by
  have width := i.width
  have height := i.height
  have fmt := i.fmt
  generalize i.input.spec = s at width height fmt even ⊢
  obtain ⟨w, h, fmt, domain, stride, verStride, modifier⟩ := s
  dsimp only at width height fmt
  simp only [List.mem_cons, List.not_mem_nil, or_false] at fmt
  obtain rfl | rfl | rfl | rfl | rfl := fmt
  · simp only [evenExtentOk, Bool.and_eq_true, decide_eq_true_eq] at even
    simp [planLayout, rowBytes, chromaRows]
    omega
  · simp only [evenExtentOk, Bool.and_eq_true, decide_eq_true_eq] at even
    simp [planLayout, rowBytes, chromaRows]
    omega
  · simp only [evenExtentOk, Bool.and_eq_true, decide_eq_true_eq] at even
    simp [planLayout, rowBytes, chromaRows]
    omega
  · simp [planLayout, rowBytes, chromaRows]
  · simp [planLayout, rowBytes]
    omega

theorem plane_lt : 3 * (i.input.spec.width * i.input.spec.height) < 2 ^ 64 := by
  have product : i.input.spec.width * 3 * i.input.spec.height < 2 ^ 32 * 2 ^ 32 := Nat.mul_lt_mul'' i.width i.height
  rw [Nat.mul_comm i.input.spec.width 3, Nat.mul_assoc] at product
  omega

/-- `min_size` of the packed frame, cut to a `size_t` where that matters. -/
theorem minSize_host (even : evenExtentOk i.input.spec = true)
    (extent : i.input.spec.width ≠ 0 ∧ i.input.spec.height ≠ 0) :
    minSize (hostSpec i.input.spec) =
      if i.input.spec.fmt = .p010 then 6 * (i.input.spec.width * i.input.spec.height) % 2 ^ 64 / 2
      else (i.input.spec.height + chromaRows i.input.spec) * rowBytes i.input.spec := by
  have st := i.effStride_host
  have plane := i.plane_lt
  have fmt := i.fmt
  have vs : effVerStride (hostSpec i.input.spec) = i.input.spec.height := rfl
  unfold minSize
  rw [vs, st]
  generalize i.input.spec = s at plane fmt even extent ⊢
  obtain ⟨w, h, fmt, domain, stride, verStride, modifier⟩ := s
  dsimp only at plane fmt extent
  simp only [List.mem_cons, List.not_mem_nil, or_false] at fmt
  -- an even height halves without a rest
  have halves (half : h % 2 = 0) : 3 * (w * h) / 2 = (h + h / 2) * w := by
    obtain ⟨k, rfl⟩ := Nat.dvd_of_mod_eq_zero half
    rw [Nat.mul_div_cancel_left k Nat.two_pos]
    apply Nat.div_eq_of_eq_mul_right Nat.two_pos
    ring
  obtain rfl | rfl | rfl | rfl | rfl := fmt
  · simp only [evenExtentOk, Bool.and_eq_true, decide_eq_true_eq] at even
    simp [rowBytes, chromaRows, hostSpec, extent]
    rw [← halves even.2, Nat.mul_comm _ 3]
    omega
  · simp only [evenExtentOk, Bool.and_eq_true, decide_eq_true_eq] at even
    simp [rowBytes, chromaRows, hostSpec, extent]
    rw [← halves even.2, Nat.mul_comm _ 3]
    omega
  · simp [rowBytes, hostSpec, extent]
    have six : 2 * w * h * 3 = 6 * (w * h) := by ring
    rw [six]
  · simp [rowBytes, chromaRows, hostSpec, extent]
    have twice : w * h * 2 = (h + h) * w := by ring
    rw [twice, Nat.mod_eq_of_lt]
    rw [← twice]
    omega
  · simp [rowBytes, chromaRows, hostSpec, extent]
    ring

/-- The size of the packed frame, where it is not cut. -/
theorem minSize_exact (even : evenExtentOk i.input.spec = true)
    (extent : i.input.spec.width ≠ 0 ∧ i.input.spec.height ≠ 0)
    (size : i.input.spec.fmt = .p010 → 6 * (i.input.spec.width * i.input.spec.height) < 2 ^ 64) :
    minSize (hostSpec i.input.spec) = (i.input.spec.height + chromaRows i.input.spec) * rowBytes i.input.spec := by
  rw [i.minSize_host even extent]
  by_cases p010 : i.input.spec.fmt = .p010
  · rw [if_pos p010, Nat.mod_eq_of_lt (size p010)]
    generalize i.input.spec = s at p010 even ⊢
    obtain ⟨w, h, fmt, domain, stride, verStride, modifier⟩ := s
    dsimp only at p010
    subst p010
    simp only [evenExtentOk, Bool.and_eq_true, decide_eq_true_eq] at even
    obtain ⟨k, rfl⟩ := Nat.dvd_of_mod_eq_zero even.2
    simp only [rowBytes, chromaRows, Nat.mul_div_cancel_left k Nat.two_pos]
    apply Nat.div_eq_of_eq_mul_right Nat.two_pos
    ring
  · rw [if_neg p010]

theorem minSize_lt (even : evenExtentOk i.input.spec = true)
    (extent : i.input.spec.width ≠ 0 ∧ i.input.spec.height ≠ 0) : minSize (hostSpec i.input.spec) < 2 ^ 64 := by
  have plane := i.plane_lt
  have fmt := i.fmt
  rw [i.minSize_host even extent]
  by_cases p010 : i.input.spec.fmt = .p010
  · rw [if_pos p010]
    omega
  rw [if_neg p010]
  generalize i.input.spec = s at plane fmt p010 ⊢
  obtain ⟨w, h, fmt, domain, stride, verStride, modifier⟩ := s
  dsimp only at plane fmt p010
  simp only [List.mem_cons, List.not_mem_nil, or_false] at fmt
  have half : (h + h / 2) * w ≤ (h + h) * w := Nat.mul_le_mul_right w (by omega)
  have twice : (h + h) * w = 2 * (w * h) := by ring
  have triple : (h + 0) * (3 * w) = 3 * (w * h) := by ring
  obtain rfl | rfl | rfl | rfl | rfl := fmt <;> simp only [rowBytes, chromaRows]
  · omega
  · omega
  · exact absurd rfl p010
  · omega
  · omega

/-- A size that is cut is less than that of the first plane. -/
theorem minSize_short (even : evenExtentOk i.input.spec = true)
    (extent : i.input.spec.width ≠ 0 ∧ i.input.spec.height ≠ 0) (p010 : i.input.spec.fmt = .p010)
    (cut : 2 ^ 64 ≤ 6 * (i.input.spec.width * i.input.spec.height)) :
    minSize (hostSpec i.input.spec) < i.input.spec.height * rowBytes i.input.spec := by
  have plane := i.plane_lt
  have first : i.input.spec.height * rowBytes i.input.spec = 2 * (i.input.spec.width * i.input.spec.height) := by
    simp only [rowBytes, p010]
    ring
  rw [i.minSize_host even extent, if_pos p010, first, Nat.mod_eq_sub_mod cut, Nat.mod_eq_of_lt (by omega)]
  omega

end MappedFrame

/-! ## The rows -/

section Rows

variable {map out : List UInt8} {start srcStride width lines l dstOff : Nat}

/-- **Rows inside of both sides are copied.** -/
theorem copyLines_eq (read : ∀ k < lines, start + (l + k) * srcStride + width ≤ map.length)
    (room : dstOff + lines * width ≤ out.length) (small : out.length < 2 ^ 64) :
    copyLines map start srcStride width width lines l out dstOff =
      some (Lib.copy out (moveRows lines dstOff width (start + l * srcStride) srcStride width) map, dstOff + lines * width) := by
  induction lines generalizing l out dstOff with
  | zero =>
    rw [copyLines, Nat.zero_mul, Nat.add_zero]
    rfl
  | succ lines ih =>
    have first := read 0 (Nat.succ_pos lines)
    rw [Nat.succ_mul] at room
    rw [copyLines, memcpy, if_pos ⟨by omega, first⟩, Option.bind_some, Nat.mod_eq_of_lt (by omega), ih, moveRows_succ,
      copy_append, Nat.succ_mul, Nat.succ_mul, Nat.add_assoc start]
    · rw [Nat.add_comm (lines * width), ← Nat.add_assoc dstOff]
    · intro k below
      rw [Nat.add_right_comm l 1 k]
      exact read (k + 1) (by omega)
    · rw [copy_length]
      omega
    · rw [copy_length]
      exact small

/-- A plane from its first line. -/
theorem copyPlane_eq (read : ∀ k < lines, start + k * srcStride + width ≤ map.length)
    (room : dstOff + lines * width ≤ out.length) (small : out.length < 2 ^ 64) :
    copyLines map start srcStride width width lines 0 out dstOff =
      some (Lib.copy out (moveRows lines dstOff width start srcStride width) map, dstOff + lines * width) := by
  have read' : ∀ k < lines, start + (0 + k) * srcStride + width ≤ map.length := by
    intro k below
    rw [Nat.zero_add]
    exact read k below
  rw [copyLines_eq read' room small, Nat.zero_mul, Nat.add_zero]

/-- A copy without a fault has all rows inside of both sides. -/
theorem copyLines_isSome (start' : dstOff ≤ out.length) (small : out.length < 2 ^ 64)
    (done : (copyLines map start srcStride width width lines l out dstOff).isSome) :
    dstOff + lines * width ≤ out.length ∧ ∀ k < lines, start + (l + k) * srcStride + width ≤ map.length := by
  induction lines generalizing l out dstOff with
  | zero => exact ⟨by omega, nofun⟩
  | succ lines ih =>
    rw [copyLines, memcpy] at done
    by_cases inside : dstOff + width ≤ out.length ∧ start + l * srcStride + width ≤ map.length
    · rw [if_pos inside, Option.bind_some, Nat.mod_eq_of_lt (by omega)] at done
      obtain ⟨room, read⟩ := ih (by rw [copy_length]; exact inside.1) (by rw [copy_length]; exact small) done
      rw [copy_length] at room
      constructor
      · rw [Nat.succ_mul]
        omega
      · intro k below
        cases k with
        | zero => exact inside.2
        | succ k =>
          have next := read k (by omega)
          rw [Nat.add_right_comm l 1 k] at next
          exact next
    · rw [if_neg inside] at done
      cases done

end Rows

/-! ## The call -/

namespace MappedFrame

variable (i : MappedFrame)

theorem effStride_lt : effStride i.input.spec < 2 ^ 32 := by
  have stride := i.stride
  have width := i.width
  unfold effStride
  split
  · exact stride
  · split <;> omega

theorem effVerStride_lt : effVerStride i.input.spec < 2 ^ 32 := by
  have height := i.height
  have verStride := i.verStride
  unfold effVerStride
  split <;> omega

theorem chromaRows_lt : chromaRows i.input.spec < 2 ^ 32 := by
  have height := i.height
  unfold chromaRows
  split <;> omega

theorem chromaRows_pos (even : evenExtentOk i.input.spec = true) (extent : i.input.spec.height ≠ 0)
    (two : i.input.spec.fmt ≠ .rgb24) : 0 < chromaRows i.input.spec := by
  have fmt := i.fmt
  generalize i.input.spec = s at fmt even extent two ⊢
  obtain ⟨w, h, fmt, domain, stride, verStride, modifier⟩ := s
  dsimp only at fmt extent two
  simp only [List.mem_cons, List.not_mem_nil, or_false] at fmt
  obtain rfl | rfl | rfl | rfl | rfl := fmt <;> simp only [evenExtentOk, chromaRows, Bool.and_eq_true, decide_eq_true_eq] at even ⊢
  · omega
  · omega
  · omega
  · omega
  · exact absurd rfl two

theorem chromaRows_rgb24 (one : i.input.spec.fmt = .rgb24) : chromaRows i.input.spec = 0 := by
  rw [chromaRows, one]

/-- The end of the first plane is a `size_t`. -/
theorem luma_lt (extent : i.input.spec.height ≠ 0) (stride : rowBytes i.input.spec ≤ effStride i.input.spec) :
    effStride i.input.spec * (i.input.spec.height - 1) + rowBytes i.input.spec < 2 ^ 64 := by
  have product := Nat.mul_lt_mul'' i.effStride_lt i.height
  have last : effStride i.input.spec * i.input.spec.height =
      effStride i.input.spec * (i.input.spec.height - 1) + effStride i.input.spec := by
    rw [← Nat.mul_succ]
    congr 1
    omega
  omega

/-- The end of the chroma is past a `size_t` once at most. -/
theorem chromaEnd_lt (some : 0 < chromaRows i.input.spec) (stride : rowBytes i.input.spec ≤ effStride i.input.spec) :
    chromaEnd i.input.spec < 2 ^ 65 := by
  have ver := i.effVerStride_lt
  have chroma := i.chromaRows_lt
  have rows : effVerStride i.input.spec + chromaRows i.input.spec < 2 ^ 33 := by omega
  have product := Nat.mul_lt_mul'' i.effStride_lt rows
  have last : effStride i.input.spec * (effVerStride i.input.spec + chromaRows i.input.spec) =
      effStride i.input.spec * (effVerStride i.input.spec + (chromaRows i.input.spec - 1)) + effStride i.input.spec := by
    rw [← Nat.mul_succ]
    congr 1
    omega
  rw [chromaEnd]
  omega

end MappedFrame

section Call

variable {heap : Heap} {sink : HostFrame → Status} {i : MappedFrame}

theorem fail_accounts {status : Status} {reason : String} (other : reason ≠ "plane accounting mismatch") :
    ⟨"process", "core.download", "plane accounting mismatch"⟩ ∉ (fail status reason).diag := by
  rw [fail, List.mem_singleton, DiagEntry.mk.injEq]
  exact fun same => other same.2.2.symm

/-- A call that does not come to the rows fails. -/
theorem copy_stops (sink : HostFrame → Status) (stops : ¬ Reaches heap i) :
    ∃ status reason, copy heap sink i.input i.map = some (fail status reason) ∧ status.isHard = true ∧
      reason ≠ "plane accounting mismatch" := by
  unfold copy
  dsimp only
  rw [if_neg i.raw.1]
  by_cases extent : i.input.spec.width = 0 ∨ i.input.spec.height = 0
  · exact ⟨_, _, if_pos extent, rfl, by decide⟩
  rw [if_neg extent]
  obtain ⟨width, height⟩ := not_or.mp extent
  cases even : evenExtentOk i.input.spec with
  | false => exact ⟨_, _, rfl, rfl, by decide⟩
  | true =>
    rw [if_neg (by decide), i.planLayout_eq even]
    dsimp only
    by_cases need : minSize (hostSpec i.input.spec) = 0
    · exact ⟨_, _, if_pos need, rfl, by decide⟩
    rw [if_neg need]
    cases room : heap.malloc (minSize (hostSpec i.input.spec)) with
    | none => exact ⟨_, _, rfl, rfl, by decide⟩
    | some dst =>
      dsimp only
      rw [copyPlanes]
      by_cases stride : rowBytes i.input.spec > effStride i.input.spec
      · rw [if_pos stride]
        exact ⟨_, _, rfl, rfl, by decide⟩
      · have luma : ¬ effStride i.input.spec * (i.input.spec.height - 1) + rowBytes i.input.spec ≤ i.map.length := fun luma =>
          stops ⟨⟨width, height⟩, even, ⟨need, by rw [room]; rfl⟩, Nat.le_of_not_lt stride, luma⟩
        have fits := i.luma_lt height (Nat.le_of_not_lt stride)
        rw [if_neg stride]
        dsimp only
        rw [Nat.mul_zero, Nat.zero_add, Nat.mul_comm, Nat.mod_eq_of_lt fits, if_pos (Nat.lt_of_not_le luma)]
        exact ⟨_, _, rfl, rfl, by decide⟩

/-- What follows the rows of the first plane. -/
def afterLuma (sink : HostFrame → Status) (i : MappedFrame) (next : List UInt8 × Nat) : Option Outcome :=
  (copyPlanes i.map (effStride i.input.spec) (rowBytes i.input.spec)
      (if i.input.spec.fmt = .rgb24 then [] else [⟨chromaRows i.input.spec, rowBytes i.input.spec, effVerStride i.input.spec⟩])
      next.1 next.2).map fun
    | .error failed => failed
    | .ok (out, dstOff) =>
      if dstOff ≠ minSize (hostSpec i.input.spec) then fail .internal "plane accounting mismatch"
      else finish sink i.input (hostSpec i.input.spec) out

/-- A call that comes to the rows. -/
theorem copy_reaches (sink : HostFrame → Status) (reaches : Reaches heap i) :
    ∃ dst, dst.length = minSize (hostSpec i.input.spec) ∧
      copy heap sink i.input i.map =
        (copyLines i.map 0 (effStride i.input.spec) (rowBytes i.input.spec) (rowBytes i.input.spec) i.input.spec.height 0
          dst 0).bind (afterLuma sink i) := by
  obtain ⟨dst, room⟩ := Option.isSome_iff_exists.mp reaches.room.2
  refine ⟨dst, heap.size _ _ room, ?_⟩
  have fits := i.luma_lt reaches.extent.2 reaches.stride
  unfold copy
  dsimp only
  rw [if_neg i.raw.1, if_neg (not_or.mpr reaches.extent), reaches.even, if_neg (by decide), i.planLayout_eq reaches.even]
  dsimp only
  rw [if_neg reaches.room.1, room]
  dsimp only
  rw [copyPlanes, if_neg (Nat.not_lt.mpr reaches.stride)]
  dsimp only
  rw [Nat.mul_zero, Nat.zero_add, Nat.mul_comm (i.input.spec.height - 1), Nat.mod_eq_of_lt fits,
    if_neg (Nat.not_lt.mpr reaches.luma), i.effStride_host, Option.map_bind]
  rfl

/-- The rows of both planes. -/
def packing (s : Spec) : List (Nat × Nat) :=
  moveRows s.height 0 (rowBytes s) 0 (effStride s) (rowBytes s) ++
    moveRows (chromaRows s) (s.height * rowBytes s) (rowBytes s) (effStride s * effVerStride s) (effStride s) (rowBytes s)

theorem mem_packing {s : Spec} {m : Nat × Nat} :
    m ∈ packing s ↔
      (∃ r < s.height, ∃ x < rowBytes s, m = (r * rowBytes s + x, effStride s * r + x)) ∨
        ∃ r < chromaRows s, ∃ x < rowBytes s,
          m = ((s.height + r) * rowBytes s + x, effStride s * (effVerStride s + r) + x) := by
  simp only [packing, List.mem_append, mem_moveRows, Nat.zero_add, Nat.add_mul, Nat.mul_comm (effStride s)]

/-- No byte of the packed frame is written from two places. -/
theorem packing_oneSource (s : Spec) : OneSource (packing s) := by
  intro m there m' there' same
  obtain ⟨r, inside, x, column, rfl⟩ | ⟨r, inside, x, column, rfl⟩ := mem_packing.mp there
  · obtain ⟨r', inside', x', column', rfl⟩ | ⟨r', inside', x', column', rfl⟩ := mem_packing.mp there'
    · obtain ⟨rfl, rfl⟩ := row_unique column column' same
      rfl
    · obtain ⟨row, -⟩ := row_unique column column' same
      omega
  · obtain ⟨r', inside', x', column', rfl⟩ | ⟨r', inside', x', column', rfl⟩ := mem_packing.mp there'
    · obtain ⟨row, -⟩ := row_unique column column' same
      omega
    · obtain ⟨row, rfl⟩ := row_unique column column' same
      obtain rfl := Nat.add_left_cancel row
      rfl

/-- The packed frame is the one that is meant. -/
theorem packed_of_rows {dst : List UInt8} {frame : HostFrame} (reaches : Reaches heap i)
    (size : dst.length = minSize (hostSpec i.input.spec))
    (rows : minSize (hostSpec i.input.spec) = (i.input.spec.height + chromaRows i.input.spec) * rowBytes i.input.spec)
    (chroma : 0 < chromaRows i.input.spec → chromaEnd i.input.spec ≤ i.map.length)
    (packed : frame = ⟨hostSpec i.input.spec, Lib.copy dst (packing i.input.spec) i.map, i.input.pts, i.input.dts,
      i.input.flags⟩) : Packed i frame := by
  have total : (Lib.copy dst (packing i.input.spec) i.map).length =
      (i.input.spec.height + chromaRows i.input.spec) * rowBytes i.input.spec := by
    rw [copy_length, size, rows]
  subst packed
  constructor
  case spec => rfl
  case size => exact (copy_length _ _ _).trans size
  case rows => exact total
  case luma =>
    intro r inside x column
    have read : effStride i.input.spec * r + x < i.map.length := by
      have le : effStride i.input.spec * r ≤ effStride i.input.spec * (i.input.spec.height - 1) :=
        Nat.mul_le_mul_left _ (by omega)
      have behind := reaches.luma
      omega
    refine ⟨read, copy_getElem? (packing_oneSource _) (mem_packing.mpr (Or.inl ⟨r, inside, x, column, rfl⟩)) ?_ read⟩
    rw [size, rows]
    exact row_lt (by omega) column
  case chroma =>
    intro r inside x column
    have read : effStride i.input.spec * (effVerStride i.input.spec + r) + x < i.map.length := by
      have le : effStride i.input.spec * (effVerStride i.input.spec + r) ≤
          effStride i.input.spec * (effVerStride i.input.spec + (chromaRows i.input.spec - 1)) :=
        Nat.mul_le_mul_left _ (by omega)
      have behind := chroma (by omega)
      rw [chromaEnd] at behind
      omega
    refine ⟨read, copy_getElem? (packing_oneSource _) (mem_packing.mpr (Or.inr ⟨r, inside, x, column, rfl⟩)) ?_ read⟩
    rw [size, rows]
    exact row_lt (by omega) column
  case stamps => exact ⟨rfl, rfl, rfl⟩

/-- The frame of `finish` is large enough to be wrapped. -/
theorem finish_emits {out : List UInt8} (size : out.length = minSize (hostSpec i.input.spec)) :
    finish sink i.input (hostSpec i.input.spec) out =
      { status := sink ⟨hostSpec i.input.spec, out, i.input.pts, i.input.dts, i.input.flags⟩
        emitted := [⟨hostSpec i.input.spec, out, i.input.pts, i.input.dts, i.input.flags⟩] } := by
  have raw : (hostSpec i.input.spec).fmt ≠ .unknown := i.raw.2
  have wrapped : borrowHost (hostSpec i.input.spec) true out.length = .ok ⟨hostSpec i.input.spec, true, out.length⟩ :=
    (borrowHost_ok raw).mpr ⟨rfl, rfl, Nat.le_of_eq size.symm, rfl⟩
  rw [finish, wrapped]

/-- **The rows of the first plane**, where the memory is as large as they need. -/
theorem luma_copied {dst : List UInt8} (reaches : Reaches heap i) (size : dst.length = minSize (hostSpec i.input.spec))
    (rows : minSize (hostSpec i.input.spec) = (i.input.spec.height + chromaRows i.input.spec) * rowBytes i.input.spec) :
    copyLines i.map 0 (effStride i.input.spec) (rowBytes i.input.spec) (rowBytes i.input.spec) i.input.spec.height 0
        dst 0 =
      some (Lib.copy dst (moveRows i.input.spec.height 0 (rowBytes i.input.spec) 0 (effStride i.input.spec)
        (rowBytes i.input.spec)) i.map, i.input.spec.height * rowBytes i.input.spec) := by
  have small := i.minSize_lt reaches.even reaches.extent
  have read : ∀ k < i.input.spec.height, 0 + k * effStride i.input.spec + rowBytes i.input.spec ≤ i.map.length := by
    intro k inside
    have le : k * effStride i.input.spec ≤ (i.input.spec.height - 1) * effStride i.input.spec :=
      Nat.mul_le_mul_right _ (by omega)
    have behind := reaches.luma
    rw [Nat.mul_comm] at behind
    omega
  have room : 0 + i.input.spec.height * rowBytes i.input.spec ≤ dst.length := by
    rw [size, rows, Nat.zero_add]
    exact Nat.mul_le_mul_right _ (Nat.le_add_right _ _)
  rw [copyPlane_eq read room (by omega), Nat.zero_add]

/-- Where the chroma ends, as the loop has it. -/
theorem chromaEnd_eq (s : Spec) :
    effStride s * effVerStride s + (chromaRows s - 1) * effStride s + rowBytes s = chromaEnd s := by
  rw [chromaEnd, Nat.mul_add, Nat.mul_comm (chromaRows s - 1)]

/-- **The rows of the chroma**, where they are in the mapping. -/
theorem chroma_copied {dst : List UInt8} (reaches : Reaches heap i) (size : dst.length = minSize (hostSpec i.input.spec))
    (rows : minSize (hostSpec i.input.spec) = (i.input.spec.height + chromaRows i.input.spec) * rowBytes i.input.spec)
    (inside : chromaEnd i.input.spec ≤ i.map.length) :
    copyLines i.map (effStride i.input.spec * effVerStride i.input.spec) (effStride i.input.spec)
        (rowBytes i.input.spec) (rowBytes i.input.spec) (chromaRows i.input.spec) 0
        (Lib.copy dst (moveRows i.input.spec.height 0 (rowBytes i.input.spec) 0 (effStride i.input.spec)
          (rowBytes i.input.spec)) i.map) (i.input.spec.height * rowBytes i.input.spec) =
      some (Lib.copy dst (packing i.input.spec) i.map, minSize (hostSpec i.input.spec)) := by
  have small := i.minSize_lt reaches.even reaches.extent
  have read : ∀ k < chromaRows i.input.spec, effStride i.input.spec * effVerStride i.input.spec +
      k * effStride i.input.spec + rowBytes i.input.spec ≤ i.map.length := by
    intro k below
    have le : k * effStride i.input.spec ≤ (chromaRows i.input.spec - 1) * effStride i.input.spec :=
      Nat.mul_le_mul_right _ (by omega)
    rw [← chromaEnd_eq] at inside
    omega
  rw [Nat.add_mul] at rows
  rw [packing, copy_append, rows]
  apply copyPlane_eq read
  · rw [copy_length, size, rows]
  · rw [copy_length, size]
    exact small

/-- A call with exact sizes. -/
theorem copies_right (exact : Reaches heap i → Exact i) : CopiesRight heap sink i := by
  by_cases reaches : Reaches heap i
  · have exact := exact reaches
    have rows := i.minSize_exact reaches.even reaches.extent exact.size
    obtain ⟨dst, size, ran⟩ := copy_reaches sink reaches
    rw [luma_copied reaches size rows, Option.bind_some, afterLuma] at ran
    by_cases one : i.input.spec.fmt = .rgb24
    · have none := i.chromaRows_rgb24 one
      rw [if_pos one, copyPlanes, Option.map_some] at ran
      dsimp only at ran
      rw [rows, none, Nat.add_zero, if_neg (not_not_intro rfl)] at ran
      have chromaless : packing i.input.spec = moveRows i.input.spec.height 0 (rowBytes i.input.spec) 0
          (effStride i.input.spec) (rowBytes i.input.spec) := by
        rw [packing, none]
        exact List.append_nil _
      rw [← chromaless, finish_emits ((copy_length _ _ _).trans size)] at ran
      refine ⟨_, ran, List.not_mem_nil, Or.inr ⟨_, rfl, rfl, ?_⟩⟩
      apply packed_of_rows reaches size rows _ rfl
      rw [none]
      exact fun some => absurd some (Nat.lt_irrefl 0)
    · have some := i.chromaRows_pos reaches.even reaches.extent.2 one
      rw [if_neg one, copyPlanes, if_neg (Nat.not_lt.mpr reaches.stride)] at ran
      dsimp only at ran
      rw [chromaEnd_eq] at ran
      by_cases inside : chromaEnd i.input.spec ≤ i.map.length
      · have fits : chromaEnd i.input.spec % 2 ^ 64 = chromaEnd i.input.spec :=
          Nat.mod_eq_of_lt (Nat.lt_of_le_of_lt inside i.mapped)
        rw [fits, if_neg (Nat.not_lt.mpr inside), chroma_copied reaches size rows inside, Option.bind_some, copyPlanes,
          Option.map_some] at ran
        dsimp only at ran
        rw [if_neg (not_not_intro rfl), finish_emits ((copy_length _ _ _).trans size)] at ran
        refine ⟨_, ran, List.not_mem_nil, Or.inr ⟨_, rfl, rfl, ?_⟩⟩
        exact packed_of_rows reaches size rows (fun _ => inside) rfl
      · have above : chromaEnd i.input.spec % 2 ^ 64 > i.map.length := by
          have past := i.chromaEnd_lt some reaches.stride
          obtain fits | far := exact.chroma one <;> omega
        rw [if_pos above, Option.map_some] at ran
        exact ⟨_, ran, fail_accounts (by decide), Or.inl ⟨rfl, rfl⟩⟩
  · obtain ⟨status, reason, stopped, hard, other⟩ := copy_stops sink reaches
    exact ⟨_, stopped, fail_accounts other, Or.inl ⟨hard, rfl⟩⟩

/-- A call with a size that is not exact has a fault. -/
theorem copy_faults (reaches : Reaches heap i) (inexact : ¬ Exact i) : copy heap sink i.input i.map = none := by
  obtain ⟨dst, size, ran⟩ := copy_reaches sink reaches
  have small : dst.length < 2 ^ 64 := by
    rw [size]
    exact i.minSize_lt reaches.even reaches.extent
  rw [ran]
  by_cases exactSize : i.input.spec.fmt = .p010 → 6 * (i.input.spec.width * i.input.spec.height) < 2 ^ 64
  · -- the end of the chroma is past a `size_t`, and what is left of it is in the mapping
    have rows := i.minSize_exact reaches.even reaches.extent exactSize
    have wraps : i.input.spec.fmt ≠ .rgb24 ∧ 2 ^ 64 ≤ chromaEnd i.input.spec ∧
        chromaEnd i.input.spec ≤ i.map.length + 2 ^ 64 := by
      by_contra fine
      refine inexact ⟨exactSize, fun two => ?_⟩
      by_contra wraps
      obtain ⟨past, near⟩ := not_or.mp wraps
      exact fine ⟨two, Nat.le_of_not_lt past, Nat.le_of_not_lt near⟩
    obtain ⟨two, past, near⟩ := wraps
    have some := i.chromaRows_pos reaches.even reaches.extent.2 two
    have once := i.chromaEnd_lt some reaches.stride
    have mapped := i.mapped
    rw [luma_copied reaches size rows, Option.bind_some, afterLuma, if_neg two, copyPlanes,
      if_neg (Nat.not_lt.mpr reaches.stride)]
    dsimp only
    rw [chromaEnd_eq, if_neg (by omega)]
    have faults : ∀ out : List UInt8, out.length = dst.length →
        copyLines i.map (effStride i.input.spec * effVerStride i.input.spec) (effStride i.input.spec)
          (rowBytes i.input.spec) (rowBytes i.input.spec) (chromaRows i.input.spec) 0 out
          (i.input.spec.height * rowBytes i.input.spec) = none := by
      intro out same
      apply Option.not_isSome_iff_eq_none.mp
      intro done
      have start : i.input.spec.height * rowBytes i.input.spec ≤ out.length := by
        rw [same, size, rows]
        exact Nat.mul_le_mul_right _ (Nat.le_add_right _ _)
      obtain ⟨-, read⟩ := copyLines_isSome start (by omega) done
      have last := read (chromaRows i.input.spec - 1) (by omega)
      rw [Nat.zero_add, chromaEnd_eq] at last
      omega
    rw [faults _ (copy_length _ _ _)]
    rfl
  · -- the memory is too small for the first plane
    obtain ⟨p010, cut⟩ := Classical.not_imp.mp exactSize
    have short := i.minSize_short reaches.even reaches.extent p010 (Nat.le_of_not_lt cut)
    have faults : copyLines i.map 0 (effStride i.input.spec) (rowBytes i.input.spec) (rowBytes i.input.spec)
        i.input.spec.height 0 dst 0 = none := by
      apply Option.not_isSome_iff_eq_none.mp
      intro done
      obtain ⟨room, -⟩ := copyLines_isSome (Nat.zero_le _) small done
      omega
    rw [faults]
    rfl

end Call

/-- **The copy is right exactly where the size and the end of the chroma are**, whatever `malloc` and the
sink do. -/
theorem copy_right_iff (heap : Heap) (sink : HostFrame → Status) (i : MappedFrame) :
    CopiesRight heap sink i ↔ (Reaches heap i → Exact i) := by
  constructor
  · rintro ⟨outcome, ran, -⟩ reaches
    by_contra inexact
    rw [copy_faults reaches inexact] at ran
    cases ran
  · exact copies_right

/-- Memory that never runs out. -/
def endlessHeap : Heap where
  malloc n := some (List.replicate n 0)
  size := by
    intro n bytes given
    rw [← Option.some.inj given, List.length_replicate]

/-- Three rows of two samples, with strides as large as they can be. -/
def tallFrame : MappedFrame where
  input :=
    { spec := { width := 2, height := 3, fmt := .nv16, domain := .dmabuf, stride := 4294967295, verStride := 4294967295 }
      pts := 0
      dts := 0
      flags := 0 }
  map := List.replicate 8589934592 0
  domain := rfl
  linear := rfl
  fmt := by decide
  width := by decide
  height := by decide
  stride := by decide
  verStride := by decide
  mapped := by
    rw [List.length_replicate]
    decide

/-- **Chroma behind the mapping is read**: its end is one past a `size_t`, and passes for a small one. -/
theorem copy_overreads :
    copy endlessHeap (fun _ => .ok) tallFrame.input tallFrame.map = none ∧
      chromaEnd tallFrame.input.spec = 2 ^ 64 + 1 ∧ ¬ CopiesRight endlessHeap (fun _ => .ok) tallFrame := by
  have mapped : tallFrame.map.length = 8589934592 := List.length_replicate
  have reaches : Reaches endlessHeap tallFrame := by
    constructor
    · decide
    · decide
    · exact ⟨by decide, rfl⟩
    · decide
    · rw [mapped]
      decide
  have inexact : ¬ Exact tallFrame := by
    intro exact
    have fits := exact.chroma (by decide)
    rw [mapped] at fits
    exact absurd fits (by decide)
  have faults : copy endlessHeap (fun _ => .ok) tallFrame.input tallFrame.map = none := copy_faults reaches inexact
  refine ⟨faults, by decide, ?_⟩
  rintro ⟨outcome, ran, -⟩
  rw [faults] at ran
  cases ran

end Rkvc.DownloadNode
