import Mathlib.Algebra.Group.Nat.Defs
import Rkvc.Core.Spec

/-!
# Host frames

`Frame::borrow_host` wraps memory of the caller after a look at its size:
`min_size` of the specification, from the strides alone and in 64-bit arithmetic.
-/

namespace Rkvc
set_option autoImplicit false

/-- `eff_stride`, a `uint32_t`. -/
def effStride (s : Spec) : Nat :=
  if s.stride ≠ 0 then s.stride
  else match s.fmt with
    | .yuv420p | .nv12 | .nv21 | .nv16 => s.width
    | .p010 => s.width * 2 % 2 ^ 32
    | .rgb24 => s.width * 3 % 2 ^ 32
    | _ => 0

/-- `eff_ver_stride`. -/
def effVerStride (s : Spec) : Nat := if s.verStride ≠ 0 then s.verStride else s.height

/-- `min_size`; zero means that nothing is asked. -/
def minSize (s : Spec) : Nat :=
  if s.fmt = .unknown ∨ s.fmt = .bitstream then 0
  else
    let st := effStride s
    let vs := effVerStride s
    if st = 0 ∨ vs = 0 then 0
    else
      let plane := st * vs
      match s.fmt with
      | .nv12 | .nv21 | .yuv420p | .p010 => plane * 3 % 2 ^ 64 / 2
      | .nv16 => plane * 2 % 2 ^ 64
      | .rgb24 => plane
      | _ => 0

/-- A frame in host memory: whether it has a payload, and its size. -/
structure BorrowedFrame where
  spec : Spec
  data : Bool
  size : Nat
  deriving DecidableEq, Repr

/-- `Frame::borrow_host`; memory for the frame never runs out. -/
def borrowHost (spec : Spec) (data : Bool) (size : Nat) : Result BorrowedFrame :=
  let reject status reason := Result.reject status "wrap" "frame" reason
  if spec.domain ≠ .host then reject .invalid "host borrow needs host domain"
  else if spec.fmt ≠ .unknown then
    if !data then reject .invalid "null host payload"
    else if minSize spec ≠ 0 ∧ size < minSize spec then reject .invalid "host payload too small"
    else .ok ⟨spec, data, size⟩
  else .ok ⟨spec, data, size⟩

/-- What `borrow_host` takes for a raw format. -/
theorem borrowHost_ok {spec : Spec} {data : Bool} {size : Nat} {frame : BorrowedFrame}
    (raw : spec.fmt ≠ .unknown) :
    borrowHost spec data size = .ok frame ↔
      spec.domain = .host ∧ data = true ∧ minSize spec ≤ size ∧ frame = ⟨spec, true, size⟩ := by
  unfold borrowHost
  dsimp only
  rw [if_pos raw]
  by_cases host : spec.domain = .host
  · rw [if_neg (not_not_intro host)]
    cases data with
    | false => simp [Result.reject]
    | true =>
      by_cases short : minSize spec ≠ 0 ∧ size < minSize spec
      · rw [if_neg (by decide), if_pos short]
        simp [Result.reject]
        omega
      · rw [if_neg (by decide), if_neg short]
        simp only [Except.ok.injEq, host, true_and]
        constructor
        · intro same
          exact ⟨by omega, same.symm⟩
        · intro taken
          exact taken.2.symm
  · rw [if_pos host]
    simp [Result.reject, host]

end Rkvc
