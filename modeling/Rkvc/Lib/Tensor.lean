import Mathlib.Algebra.BigOperators.Group.List.Basic
import Mathlib.Tactic.Ring

/-!
# Tensors in row-major order

A tensor is a shape and the list of its elements in row-major order. `ofFn`
builds one from a function of the index, `get` reads one; the two are inverse on
the indices inside the shape, so an operation is described by what it reads
(`get_ofFn`) and two tensors are compared index by index (`Tensor.ext_get`).
`reshape` keeps the elements and changes the indices that name them.
-/

namespace Rkvc.Lib
set_option autoImplicit false

/-! ## Indices -/

/-- The index has one coordinate per axis, each below the extent. -/
def Inside : List Nat → List Nat → Prop
  | [], [] => True
  | n :: shape, i :: index => i < n ∧ Inside shape index
  | _, _ => False

@[simp] theorem inside_nil : Inside [] [] := trivial

@[simp] theorem inside_cons {n i : Nat} {shape index : List Nat} :
    Inside (n :: shape) (i :: index) ↔ i < n ∧ Inside shape index := Iff.rfl

/-- An index has as many coordinates as there are axes. -/
theorem Inside.length {shape index : List Nat} (inside : Inside shape index) : index.length = shape.length := by
  induction shape generalizing index with
  | nil =>
    cases index with
    | nil => rfl
    | cons => cases inside
  | cons n shape ih =>
    cases index with
    | nil => cases inside
    | cons i index => exact congrArg (· + 1) (ih inside.2)

/-- A coordinate may be changed with the extent of its axis. -/
theorem Inside.modify {shape index : List Nat} {axis m : Nat} {f : Nat → Nat} (inside : Inside shape index)
    (below : f (index.getD axis 0) < m) : Inside (shape.set axis m) (index.modify axis f) := by
  induction shape generalizing index axis with
  | nil =>
    cases index with
    | nil => simp
    | cons => cases inside
  | cons n shape ih =>
    cases index with
    | nil => cases inside
    | cons i index =>
      cases axis with
      | zero => simpa using ⟨by simpa using below, inside.2⟩
      | succ axis => simpa using ⟨inside.1, ih inside.2 (by simpa using below)⟩

/-- A change of one coordinate depends on that coordinate only. -/
theorem modify_congr {index : List Nat} {axis : Nat} {f g : Nat → Nat}
    (same : f (index.getD axis 0) = g (index.getD axis 0)) : index.modify axis f = index.modify axis g := by
  induction index generalizing axis with
  | nil => simp
  | cons i index ih =>
    cases axis with
    | zero => simpa using same
    | succ axis => simpa using ih (by simpa using same)

theorem Inside.getD_lt {shape index : List Nat} {axis : Nat} (inside : Inside shape index)
    (within : axis < shape.length) : index.getD axis 0 < shape.getD axis 0 := by
  induction shape generalizing index axis with
  | nil => cases within
  | cons n shape ih =>
    cases index with
    | nil => cases inside
    | cons i index =>
      cases axis with
      | zero => simpa using inside.1
      | succ axis => simpa using ih inside.2 (by simpa using within)
/-- Row-major position of an index. -/
def flat : List Nat → List Nat → Nat
  | _ :: shape, i :: index => i * shape.prod + flat shape index
  | _, _ => 0

@[simp] theorem flat_nil (index : List Nat) : flat [] index = 0 := by
  cases index <;> rfl

@[simp] theorem flat_cons {n i : Nat} {shape index : List Nat} :
    flat (n :: shape) (i :: index) = i * shape.prod + flat shape index := rfl

/-- All indices of a shape, in row-major order. -/
def indices : List Nat → List (List Nat)
  | [] => [[]]
  | n :: shape => (List.range n).flatMap fun i => (indices shape).map (i :: ·)

theorem length_indices (shape : List Nat) : (indices shape).length = shape.prod := by
  induction shape with
  | nil => rfl
  | cons n shape ih => simp [indices, List.length_flatMap, ih]

theorem mem_indices {shape index : List Nat} : index ∈ indices shape ↔ Inside shape index := by
  induction shape generalizing index with
  | nil => cases index <;> simp [indices, Inside]
  | cons n shape ih =>
    cases index with
    | nil => simp [indices, Inside]
    | cons i index => simp [indices, ih]

/-- An index inside the shape has a position inside the data. -/
theorem flat_lt {shape index : List Nat} (inside : Inside shape index) : flat shape index < shape.prod := by
  induction shape generalizing index with
  | nil => simp
  | cons n shape ih =>
    cases index with
    | nil => cases inside
    | cons i index =>
      have below := ih inside.2
      have row : (i + 1) * shape.prod ≤ n * shape.prod := Nat.mul_le_mul_right _ inside.1
      rw [List.prod_cons, flat_cons]
      rw [Nat.succ_mul] at row
      omega

/-- Blocks of one length: position `i * length + k` lies in block `i`. -/
theorem getElem?_flatMap_range {α : Type} {f : Nat → List α} {n k i len : Nat} (hf : ∀ j, (f j).length = len)
    (hi : i < n) (hk : k < len) : ((List.range n).flatMap f)[i * len + k]? = (f i)[k]? := by
  induction n with
  | zero => cases hi
  | succ n ih =>
    have total : ((List.range n).flatMap f).length = n * len := by
      simp [List.length_flatMap, hf]
    rw [List.range_succ, List.flatMap_append]
    rcases Nat.lt_succ_iff_lt_or_eq.1 hi with earlier | rfl
    · have row : (i + 1) * len ≤ n * len := Nat.mul_le_mul_right _ earlier
      rw [Nat.succ_mul] at row
      rw [List.getElem?_append_left (by omega)]
      exact ih earlier
    · rw [List.getElem?_append_right (by omega), total, Nat.add_sub_cancel_left]
      simp

/-- Position and enumeration agree. -/
theorem getElem?_indices {shape index : List Nat} (inside : Inside shape index) :
    (indices shape)[flat shape index]? = some index := by
  induction shape generalizing index with
  | nil =>
    cases index with
    | nil => rfl
    | cons => cases inside
  | cons n shape ih =>
    cases index with
    | nil => cases inside
    | cons i index =>
      have inner := ih inside.2
      have rows (j : Nat) : ((indices shape).map (j :: ·)).length = shape.prod := by
        rw [List.length_map, length_indices]
      rw [flat_cons, indices, getElem?_flatMap_range rows inside.1 (flat_lt inside.2), List.getElem?_map, inner]
      rfl

/-- Every position is that of an index. -/
theorem exists_index {shape : List Nat} {k : Nat} (hk : k < shape.prod) :
    ∃ index, Inside shape index ∧ flat shape index = k := by
  induction shape generalizing k with
  | nil => exact ⟨[], trivial, by simp at hk ⊢; omega⟩
  | cons n shape ih =>
    rw [List.prod_cons] at hk
    have pos : 0 < shape.prod := Nat.pos_of_ne_zero fun h => by simp [h] at hk
    obtain ⟨index, inside, position⟩ := ih (Nat.mod_lt k pos)
    refine ⟨k / shape.prod :: index, ⟨Nat.div_lt_of_lt_mul (by rwa [Nat.mul_comm]), inside⟩, ?_⟩
    rw [flat_cons, position, Nat.mul_comm]
    exact Nat.div_add_mod k shape.prod

/-! ## Tensors -/

structure Tensor (α : Type) where
  shape : List Nat
  data : List α
  size : data.length = shape.prod
  deriving DecidableEq

namespace Tensor

variable {α β : Type}

def ofFn (shape : List Nat) (f : List Nat → α) : Tensor α where
  shape := shape
  data := (indices shape).map f
  size := by rw [List.length_map, length_indices]

@[simp] theorem shape_ofFn (shape : List Nat) (f : List Nat → α) : (ofFn shape f).shape = shape := rfl

/-- Apply a function to every element. -/
def map (f : α → β) (t : Tensor α) : Tensor β where
  shape := t.shape
  data := t.data.map f
  size := by rw [List.length_map, t.size]

@[simp] theorem shape_map (f : α → β) (t : Tensor α) : (t.map f).shape = t.shape := rfl

variable [Inhabited α] [Inhabited β]

def get (t : Tensor α) (index : List Nat) : α := t.data.getD (flat t.shape index) default

/-- **Reading** a tensor built from a function. -/
theorem get_ofFn {shape index : List Nat} {f : List Nat → α} (inside : Inside shape index) :
    (ofFn shape f).get index = f index := by
  simp [get, ofFn, List.getD_eq_getElem?_getD, getElem?_indices inside]

theorem get_eq {t : Tensor α} {index : List Nat} (inside : Inside t.shape index) :
    t.data[flat t.shape index]? = some (t.get index) := by
  have below := flat_lt inside
  rw [← t.size] at below
  rw [get, List.getD_eq_getElem?_getD, List.getElem?_eq_getElem below, Option.getD_some]

theorem get_map {t : Tensor α} {f : α → β} {index : List Nat} (inside : Inside t.shape index) :
    (t.map f).get index = f (t.get index) := by
  have read := get_eq inside
  simp [get, map, List.getD_eq_getElem?_getD] at read ⊢
  rw [read]
  rfl

/-- A tensor is the one built from its own reads. -/
theorem ofFn_get (t : Tensor α) : ofFn t.shape t.get = t := by
  have elements : (indices t.shape).map t.get = t.data := by
    apply List.ext_getElem?
    intro k
    by_cases hk : k < t.shape.prod
    · obtain ⟨index, inside, rfl⟩ := exists_index hk
      rw [List.getElem?_map, getElem?_indices inside, get_eq inside]
      rfl
    · rw [List.getElem?_eq_none (by simpa [length_indices] using hk),
        List.getElem?_eq_none (by simpa [t.size] using hk)]
  cases t
  simpa [ofFn] using elements

/-- **Two tensors of one shape** are equal when they read the same. -/
theorem ext_get {s t : Tensor α} (shape : s.shape = t.shape)
    (reads : ∀ index, Inside s.shape index → s.get index = t.get index) : s = t := by
  rw [← ofFn_get s, ← ofFn_get t, ← shape]
  simp only [ofFn, mk.injEq, true_and]
  apply List.map_congr_left
  intro index mem
  exact reads index (mem_indices.1 mem)

/-! ## Reshape and transpose -/

/-- Other extents over the same elements. -/
def reshape (t : Tensor α) (shape : List Nat) : Option (Tensor α) :=
  if h : shape.prod = t.shape.prod then some ⟨shape, t.data, t.size.trans h.symm⟩ else none

omit [Inhabited α] in
theorem shape_reshape {t r : Tensor α} {shape : List Nat} (made : t.reshape shape = some r) : r.shape = shape := by
  unfold reshape at made
  split at made
  · cases made
    rfl
  · cases made

theorem reshape_spec {t : Tensor α} (shape : List Nat) (h : shape.prod = t.shape.prod) :
    ∃ r, t.reshape shape = some r ∧ r.shape = shape ∧
      ∀ index index', flat shape index = flat t.shape index' → r.get index = t.get index' := by
  refine ⟨⟨shape, t.data, t.size.trans h.symm⟩, by rw [reshape, dif_pos h], rfl, ?_⟩
  intro index index' position
  simp only [get, position]

/-- The index of the source that an index of the transposed tensor names. -/
def sourceIndex (perm index : List Nat) : List Nat :=
  (List.range perm.length).map fun axis => index.getD (perm.idxOf axis) 0

/-- Axis `k` of the result is axis `perm[k]` of the source. -/
def transpose (t : Tensor α) (perm : List Nat) : Tensor α :=
  ofFn (perm.map fun axis => t.shape.getD axis 1) fun index => t.get (sourceIndex perm index)

theorem get_transpose {t : Tensor α} {perm index : List Nat}
    (inside : Inside (perm.map fun axis => t.shape.getD axis 1) index) :
    (t.transpose perm).get index = t.get (sourceIndex perm index) := get_ofFn inside

/-! ## Slices and concatenation -/

/-- The positions from `lo` to `hi` of an axis. -/
def slice (t : Tensor α) (axis lo hi : Nat) : Tensor α :=
  ofFn (t.shape.set axis (hi - lo)) fun index => t.get (index.modify axis (· + lo))

/-- `s` and after it `t`, along an axis. -/
def concat (s t : Tensor α) (axis : Nat) : Tensor α :=
  ofFn (s.shape.set axis (s.shape.getD axis 0 + t.shape.getD axis 0)) fun index =>
    if index.getD axis 0 < s.shape.getD axis 0 then s.get index
    else t.get (index.modify axis (· - s.shape.getD axis 0))

section Ranges
variable {t : Tensor α} {index : List Nat} {axis : Nat}

theorem get_slice {lo hi : Nat} (inside : Inside (t.shape.set axis (hi - lo)) index) :
    (t.slice axis lo hi).get index = t.get (index.modify axis (· + lo)) := get_ofFn inside

theorem get_concat {s : Tensor α}
    (inside : Inside (s.shape.set axis (s.shape.getD axis 0 + t.shape.getD axis 0)) index) :
    (s.concat t axis).get index =
      if index.getD axis 0 < s.shape.getD axis 0 then s.get index
      else t.get (index.modify axis (· - s.shape.getD axis 0)) := get_ofFn inside

end Ranges

end Tensor

end Rkvc.Lib
