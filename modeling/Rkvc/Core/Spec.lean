import Rkvc.Core.Status

/-!
# Port specifications

`rkvc::Spec`, what two ports of an edge negotiate about, and its wildcard merge
`unify`. Zero dimensions and the format `Unknown` are wildcards.
-/

namespace Rkvc
set_option autoImplicit false

inductive PixelFormat where
  | unknown | nv12 | nv21 | yuv420p | nv16 | p010 | rgb24 | bitstream
  deriving DecidableEq, Repr

inductive MemDomain where
  | host | dmabuf
  deriving DecidableEq, Repr

structure Spec where
  width : Nat := 0
  height : Nat := 0
  fmt : PixelFormat := .unknown
  domain : MemDomain := .host
  stride : Nat := 0
  verStride : Nat := 0
  modifier : Nat := 0
  deriving DecidableEq, Repr

def isLinear (s : Spec) : Bool := s.modifier = 0

/-- `merge_dim`: zero matches everything. -/
def mergeDim (a b : Nat) : Option Nat :=
  if a ≠ 0 ∧ b ≠ 0 ∧ a ≠ b then none else some (if a ≠ 0 then a else b)

/-- The four `merge_dim` calls of `unify`, over a result that starts as `a`. -/
def mergeDims (a b : Spec) : Option Spec := do
  let width ← mergeDim a.width b.width
  let height ← mergeDim a.height b.height
  let stride ← mergeDim a.stride b.stride
  let verStride ← mergeDim a.verStride b.verStride
  return { a with width, height, stride, verStride }

/-- **`unify`**: an unknown format on one side yields the other side whole. -/
def unify (a b : Spec) : Result Spec :=
  let reject reason := Result.reject .negotiate "negotiate" "spec" reason
  if a.fmt = .unknown then .ok b
  else if b.fmt = .unknown then .ok a
  else if a.fmt ≠ b.fmt then reject "pixel format mismatch"
  else if a.domain ≠ b.domain then reject "memory domain mismatch"
  else if a.modifier ≠ b.modifier then reject "modifier mismatch"
  else match mergeDims a b with
    | none => reject "dimension mismatch"
    | some r => .ok r

theorem unify_unknown_left {a : Spec} (b : Spec) (ha : a.fmt = .unknown) : unify a b = .ok b := by
  simp [unify, ha]

theorem unify_unknown_right {a b : Spec} (ha : a.fmt ≠ .unknown) (hb : b.fmt = .unknown) :
    unify a b = .ok a := by
  simp [unify, ha, hb]

/-- Two known formats unify only with equal format, domain and modifier. -/
theorem unify_known {a b r : Spec} (ha : a.fmt ≠ .unknown) (hb : b.fmt ≠ .unknown)
    (h : unify a b = .ok r) : a.fmt = b.fmt ∧ a.domain = b.domain ∧ a.modifier = b.modifier := by
  unfold unify at h
  rw [if_neg ha, if_neg hb] at h
  split at h
  · exact absurd h Result.reject_ne_ok
  split at h
  · exact absurd h Result.reject_ne_ok
  split at h
  · exact absurd h Result.reject_ne_ok
  rename_i hfmt hdom hmod
  exact ⟨Decidable.not_not.mp hfmt, Decidable.not_not.mp hdom, Decidable.not_not.mp hmod⟩

/-- A failed merge is a negotiation failure. -/
theorem unify_error {a b : Spec} {e : Failure} (h : unify a b = .error e) : e.status = .negotiate := by
  unfold unify at h
  dsimp only at h
  repeat' split at h
  all_goals cases h <;> rfl

end Rkvc
