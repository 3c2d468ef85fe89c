import Rkvc.Onnx.Operators
import Mathlib.Tactic.Ring
import Mathlib.Algebra.Order.Field.Basic

/-!
# Operators that stand for others

What a reordering, a bound and a reciprocal have to do with the operators that they are
written for: `SpaceToDepth` is two changes of shape with a transposition between them
(`spaceToDepth_transposes`), `Max` and `Min` with one element are a bound
(`max_clips`, `min_clips`), and `Div` is `Mul` by what the elements are reciprocals of
(`div_multiplies`).
-/

namespace Rkvc.Onnx
set_option autoImplicit false
open Lib

/-! ## Reordering -/

section Reorder

variable {α : Type} [Inhabited α]

/-- **`SpaceToDepth` in three steps.** -/
theorem spaceToDepth_transposes {t : Tensor α} {bs n c H W : Nat} (positive : 0 < bs)
    (shape : t.shape = [n, c, H * bs, W * bs]) :
    ∃ split r, t.reshape [n, c, H, bs, W, bs] = some split ∧
      (split.transpose [0, 3, 5, 1, 2, 4]).reshape [n, c * bs * bs, H, W] = some r ∧ spaceToDepth bs t = some r := by
  obtain ⟨split, splitEq, splitShape, splitGet⟩ :=
    Tensor.reshape_spec (t := t) [n, c, H, bs, W, bs] (by rw [shape]; simp only [List.prod_cons, List.prod_nil]; ring)
  have turnedShape : (split.transpose [0, 3, 5, 1, 2, 4]).shape = [n, bs, bs, c, H, W] := by
    simp [Tensor.transpose, splitShape]
  obtain ⟨r, rEq, rShape, rGet⟩ :=
    Tensor.reshape_spec (t := split.transpose [0, 3, 5, 1, 2, 4]) [n, c * bs * bs, H, W]
      (by rw [turnedShape]; simp only [List.prod_cons, List.prod_nil]; ring)
  refine ⟨split, r, splitEq, rEq, ?_⟩
  unfold spaceToDepth
  rw [shape]
  simp only [positive, Nat.mul_mod_left, Nat.mul_div_cancel _ positive, and_self, if_true, Option.some.injEq]
  apply Tensor.ext_get
  · exact rShape.symm
  · intro index inside
    match index, inside with
    | [b, k, y, x], inside =>
      have within : Inside [n, c * bs * bs, H, W] [b, k, y, x] := inside
      rw [Tensor.get_ofFn within]
      obtain ⟨hb, hk, hy, hx, -⟩ := within
      have some : 0 < c := Nat.pos_of_ne_zero (by rintro rfl; simp at hk)
      have phase : k / c < bs * bs := by
        apply Nat.div_lt_of_lt_mul
        rwa [← Nat.mul_assoc]
      have row : k / c / bs < bs := Nat.div_lt_of_lt_mul phase
      have column : k / c % bs < bs := Nat.mod_lt _ positive
      have channel : k % c < c := Nat.mod_lt _ some
      symm
      calc r.get [b, k, y, x]
          = (split.transpose [0, 3, 5, 1, 2, 4]).get [b, k / c / bs, k / c % bs, k % c, y, x] := by
            apply rGet
            rw [turnedShape]
            have whole : k = (k / c / bs * bs + k / c % bs) * c + k % c := by
              rw [Nat.mul_comm (k / c / bs) bs, Nat.div_add_mod, Nat.mul_comm (k / c) c, Nat.div_add_mod]
            simp only [flat_cons, flat_nil, List.prod_cons, List.prod_nil]
            generalize k / c / bs = i at whole ⊢
            generalize k / c % bs = j at whole ⊢
            generalize k % c = l at whole ⊢
            rw [whole]
            ring
        _ = split.get [b, k % c, y, k / c / bs, x, k / c % bs] := by
            apply Tensor.get_transpose
            simp only [splitShape]
            simp [hb, row, column, channel, hy, hx]
        _ = t.get [b, k % c, y * bs + k / c / bs, x * bs + k / c % bs] := by
            apply splitGet
            rw [shape]
            simp only [flat_cons, flat_nil, List.prod_cons, List.prod_nil]
            ring

end Reorder

/-! ## One element -/

section Broadcast

variable {α β γ δ : Type} [Inhabited α] [Inhabited β]

omit [Inhabited β] in
/-- What is read of a tensor is one of its elements, or nothing is. -/
theorem get_cases (t : Tensor α) (index : List Nat) : t.get index ∈ t.data ∨ t.get index = default := by
  rw [Tensor.get, List.getD_eq_getElem?_getD]
  cases there : t.data[flat t.shape index]? with
  | none => exact .inr rfl
  | some v => exact .inl (List.mem_of_getElem? there)

/-- Two ways to treat the elements of the second operand. -/
theorem broadcast_congr [Inhabited δ] {f : α → β → γ} {g : α → δ → γ} {h : β → δ} {s : Tensor α} {t : Tensor β}
    (outside : ∀ x, f x default = g x default)
    (same : ∀ x, x ∈ s.data ∨ x = default → ∀ v ∈ t.data, f x v = g x (h v)) :
    broadcast f s t = broadcast g s (t.map h) := by
  have element (index index' : List Nat) : f (s.get index) (t.get index') = g (s.get index) ((t.map h).get index') := by
    rw [Tensor.get.eq_def t, Tensor.get.eq_def (t.map h), Tensor.map, List.getD_eq_getElem?_getD,
      List.getD_eq_getElem?_getD, List.getElem?_map]
    dsimp only
    cases there : t.data[flat t.shape index']? with
    | none => exact outside _
    | some v => exact same _ (get_cases s index) v (List.mem_of_getElem? there)
  rw [broadcast, broadcast, Tensor.shape_map]
  exact congrArg (Option.map · _) (funext fun shape => congrArg (Tensor.ofFn shape) (funext fun index => element _ _))

theorem ones_of_prod {shape : List Nat} (one : shape.prod = 1) : shape = List.replicate shape.length 1 := by
  induction shape with
  | nil => rfl
  | cons n shape ih =>
    rw [List.prod_cons] at one
    obtain ⟨first, rest⟩ := mul_eq_one.mp one
    rw [List.length_cons, List.replicate_succ, ← ih rest, first]

theorem broadcastBack_ones {shape : List Nat} {r : Nat} (rank : r ≤ shape.length) :
    broadcastBack shape (List.replicate r 1) = some shape ∧ broadcastBack (List.replicate r 1) shape = some shape := by
  induction shape generalizing r with
  | nil =>
    obtain rfl := Nat.le_zero.mp rank
    exact ⟨rfl, rfl⟩
  | cons n shape ih =>
    cases r with
    | zero => exact ⟨rfl, rfl⟩
    | succ r =>
      obtain ⟨right, left⟩ := ih (Nat.le_of_succ_le_succ rank)
      rw [List.replicate_succ, broadcastBack, broadcastBack, right, left]
      refine ⟨if_pos (.inr rfl), ?_⟩
      by_cases same : 1 = n ∨ n = 1
      · rw [if_pos same, Option.map_some, same.elim Eq.symm id]
      · rw [if_neg same, if_pos rfl, Option.map_some]

theorem broadcastShape_ones {shape : List Nat} {r : Nat} (rank : r ≤ shape.length) :
    broadcastShape shape (List.replicate r 1) = some shape ∧ broadcastShape (List.replicate r 1) shape = some shape := by
  have rank' : r ≤ shape.reverse.length := by rwa [List.length_reverse]
  have back := broadcastBack_ones rank'
  rw [broadcastShape, broadcastShape, List.reverse_replicate, back.1, back.2, Option.map_some, List.reverse_reverse]
  exact ⟨rfl, rfl⟩

/-- An operand of the shape of the result is read where the result is. -/
theorem operandIndex_self {shape index : List Nat} (inside : Inside shape index) : operandIndex shape index = index := by
  rw [operandIndex, inside.length, Nat.sub_self, List.drop_zero]
  induction shape generalizing index with
  | nil =>
    cases index with
    | nil => rfl
    | cons => cases inside
  | cons n shape ih =>
    cases index with
    | nil => cases inside
    | cons i index =>
      rw [List.zip_cons_cons, List.map_cons, ih inside.2]
      have first : (if n = 1 then 0 else i) = i := by
        have below := inside.1
        split <;> omega
      exact congrArg (· :: index) first

theorem flat_zeros {shape index : List Nat} (zeros : ∀ i ∈ index, i = 0) : flat shape index = 0 := by
  induction shape generalizing index with
  | nil => exact flat_nil index
  | cons n shape ih =>
    cases index with
    | nil => rfl
    | cons i index =>
      obtain ⟨first, rest⟩ := List.forall_mem_cons.mp zeros
      rw [flat_cons, first, ih rest, Nat.zero_mul]

/-- An operand of one element is read there. -/
theorem get_operandIndex_one {t : Tensor α} {v : α} (single : t.data = [v]) (index : List Nat) :
    t.get (operandIndex t.shape index) = v := by
  have ones := ones_of_prod (t.size.symm.trans (congrArg List.length single))
  have zeros : ∀ i ∈ operandIndex t.shape index, i = 0 := by
    intro i listed
    obtain ⟨⟨n, k⟩, zipped, rfl⟩ := List.mem_map.mp listed
    have one : n ∈ List.replicate t.shape.length 1 := by
      rw [← ones]
      exact (List.of_mem_zip zipped).1
    exact if_pos (List.eq_of_mem_replicate one)
  rw [Tensor.get, flat_zeros zeros, single]
  rfl

variable [Inhabited γ]

/-- **Against one element.** -/
theorem broadcast_one {f : α → β → γ} {s : Tensor α} {t : Tensor β} {v : β} (single : t.data = [v])
    (rank : t.shape.length ≤ s.shape.length) : broadcast f s t = some (s.map fun x => f x v) := by
  have ones := ones_of_prod (t.size.symm.trans (congrArg List.length single))
  have shape : broadcastShape s.shape t.shape = some s.shape := by
    rw [ones]
    exact (broadcastShape_ones rank).1
  rw [broadcast, shape, Option.map_some, Option.some.injEq]
  apply Tensor.ext_get
  · rfl
  · intro index inside
    have within : Inside s.shape index := inside
    rw [Tensor.get_ofFn within, Tensor.get_map within, operandIndex_self within, get_operandIndex_one single]

theorem one_broadcast {f : β → α → γ} {s : Tensor α} {t : Tensor β} {v : β} (single : t.data = [v])
    (rank : t.shape.length ≤ s.shape.length) : broadcast f t s = some (s.map (f v)) := by
  have ones := ones_of_prod (t.size.symm.trans (congrArg List.length single))
  have shape : broadcastShape t.shape s.shape = some s.shape := by
    rw [ones]
    exact (broadcastShape_ones rank).2
  rw [broadcast, shape, Option.map_some, Option.some.injEq]
  apply Tensor.ext_get
  · rfl
  · intro index inside
    have within : Inside s.shape index := inside
    rw [Tensor.get_ofFn within, Tensor.get_map within, operandIndex_self within, get_operandIndex_one single]

end Broadcast
/-! ## Bounds and reciprocals -/

section Values

variable {K : Type} [LinearOrder K]

theorem Val.max_swap (v w : Val K) : Val.max v w = Val.max w v := by
  cases v <;> cases w <;> simp [Val.max, max_comm]

theorem Val.min_swap (v w : Val K) : Val.min v w = Val.min w v := by
  cases v <;> cases w <;> simp [Val.min, min_comm]

/-- A bound that neither side of a maximum is above. -/
theorem clipVal_max {v c edge : Val K} (below : Val.min v edge = v) (below' : Val.min c edge = c) :
    clipVal (some c) (some edge) v = Val.max v c := by
  show Val.min (Val.max v c) edge = Val.max v c
  cases edge with
  | nan =>
    cases v <;> cases c <;> simp_all [Val.max, Val.min]
  | posInf => cases v <;> cases c <;> simp_all [Val.max, Val.min]
  | negInf => cases v <;> cases c <;> simp_all [Val.max, Val.min]
  | fin e => cases v <;> cases c <;> simp_all [Val.max, Val.min]

/-- A bound below a minimum, where it is not the other side that is taken. -/
theorem clipVal_min {v c edge : Val K} (number : edge ≠ .nan) (above : Val.min v c = c ∨ Val.max v edge = v) :
    clipVal (some edge) (some c) v = Val.min v c := by
  show Val.min (Val.max v edge) c = Val.min v c
  rcases above with taken | above
  · rw [taken]
    cases edge with
    | nan => exact absurd rfl number
    | posInf => cases v <;> cases c <;> simp_all [Val.max, Val.min]
    | negInf => cases v <;> cases c <;> simp_all [Val.max, Val.min]
    | fin e => cases v <;> cases c <;> simp_all [Val.max, Val.min]
  · rw [above]

variable [Field K] [IsStrictOrderedRing K]

/-- **A quotient is a product with the reciprocal**, also where it is not finite. -/
theorem div_reciprocal {x c : Val K} (nonzero : c ≠ .fin 0) :
    Val.div x c = Val.mul x (Val.div (.fin 1) c) := by
  cases c with
  | fin c =>
    have other : c ≠ 0 := fun zero => nonzero (congrArg Val.fin zero)
    cases x with
    | fin x => simp [Val.div, Val.mul, other, div_eq_mul_inv]
    | posInf =>
      rcases lt_or_gt_of_ne other with neg | pos
      · simp [Val.div, Val.mul, Val.infinite, other, neg, neg.le]
      · simp [Val.div, Val.mul, Val.infinite, other, pos, not_lt.mpr pos.le]
    | negInf =>
      rcases lt_or_gt_of_ne other with neg | pos
      · simp [Val.div, Val.mul, Val.infinite, other, neg]
      · simp [Val.div, Val.mul, Val.infinite, other, not_lt.mpr pos.le]
    | nan => simp [Val.div, Val.mul]
  | posInf => cases x <;> simp [Val.div, Val.mul, Val.infinite]
  | negInf => cases x <;> simp [Val.div, Val.mul, Val.infinite]
  | nan => cases x <;> simp [Val.div, Val.mul]

/-- No other number stands for all quotients by one. -/
theorem reciprocal_exact {c r : Val K} (nonzero : c ≠ .fin 0) :
    (∀ x, Val.div x c = Val.mul x r) ↔ r = Val.div (.fin 1) c := by
  constructor
  · intro all
    rw [all]
    cases r <;> simp [Val.mul, Val.infinite]
  · rintro rfl x
    exact div_reciprocal nonzero

variable [FloorRing K]

/-- An integer divided by one or by minus one. -/
theorem divInt_unit {m : Int} {c : Val K} (unit : c = .fin 1 ∨ c = .fin (-1)) :
    Val.divInt (.fin (m : K)) c = Val.mul (.fin (m : K)) c := by
  have whole (k : Int) : Val.truncate (k : K) = k := by
    rw [Val.truncate, Int.ceil_intCast, Int.floor_intCast, ite_self]
  rcases unit with rfl | rfl
  · simp [Val.divInt, Val.mul, whole]
  · have quotient : (m : K) / -1 = ((-m : Int) : K) := by
      rw [div_neg, div_one, Int.cast_neg]
    have product : (m : K) * -1 = ((-m : Int) : K) := by
      rw [mul_neg, mul_one, Int.cast_neg]
    rw [Val.divInt, Val.mul, if_neg (neg_ne_zero.mpr one_ne_zero), quotient, product, whole]

/-- Of the integers, only units have a number that stands for all quotients. -/
theorem reciprocal_whole {c : Int} {r : Val K} (nonzero : c ≠ 0) :
    (∀ x : Int, Val.divInt (.fin (x : K)) (.fin (c : K)) = Val.mul (.fin (x : K)) r) ↔
      (c = 1 ∨ c = -1) ∧ r = .fin (c : K) := by
  have other : (c : K) ≠ 0 := Int.cast_ne_zero.mpr nonzero
  have whole (k : Int) : Val.truncate (k : K) = k := by
    rw [Val.truncate, Int.ceil_intCast, Int.floor_intCast, ite_self]
  constructor
  · intro all
    have one := all 1
    have self := all c
    rw [Val.divInt, if_neg other] at one self
    rw [div_self other, ← Int.cast_one, whole] at self
    cases r with
    | fin r =>
      rw [Val.mul, Val.fin.injEq, Int.cast_one, one_mul] at one
      rw [Val.mul, Val.fin.injEq, ← one] at self
      have product : c * Val.truncate (1 / (c : K)) = 1 := by exact_mod_cast self.symm
      rw [← one, Val.fin.injEq, Int.cast_inj]
      generalize Val.truncate (1 / (c : K)) = m at product
      rcases Int.eq_one_or_neg_one_of_mul_eq_one product with rfl | rfl
      · exact ⟨.inl rfl, by omega⟩
      · exact ⟨.inr rfl, by omega⟩
    | posInf => simp [Val.mul, Val.infinite] at one
    | negInf => simp [Val.mul, Val.infinite, not_lt.mpr zero_le_one] at one
    | nan => simp [Val.mul] at one
  · rintro ⟨unit, rfl⟩ x
    apply divInt_unit
    rcases unit with rfl | rfl
    · left
      rw [Int.cast_one]
    · right
      rw [Int.cast_neg, Int.cast_one]

end Values

section Arrays

variable {K : Type} {a k out : NdArray K} {c edge : Val K}

/-- An array of rank 0. -/
def scalarArr (dtype : DType) (v : Val K) : NdArray K := { dtype, tensor := ⟨[], [v], rfl⟩ }

theorem map_congr {f g : Val K → Val K} (same : ∀ v ∈ a.tensor.data, f v = g v) : a.tensor.map f = a.tensor.map g := by
  simp only [Tensor.map, Tensor.mk.injEq, true_and]
  exact List.map_congr_left same

variable [LinearOrder K]

/-- `Clip` between two elements. -/
theorem clip_scalars (lo hi : Val K) (numeric : a.dtype.numeric = true) :
    clip a (some (scalarArr a.dtype lo)) (some (scalarArr a.dtype hi)) =
      some { a with tensor := a.tensor.map (clipVal (some lo) (some hi)) } := by
  simp [clip, clipBound, scalarArr, numeric]

/-- **`Max` with one element is a bound from below**, where nothing is above the other bound. -/
theorem max_clips (single : k.tensor.data = [c]) (rank : k.tensor.shape.length ≤ a.tensor.shape.length)
    (below : ∀ v ∈ a.tensor.data, Val.min v edge = v) (below' : Val.min c edge = c)
    (gives : elementwise Val.max a k = some out ∨ elementwise Val.max k a = some out) :
    clip a (some (scalarArr k.dtype c)) (some (scalarArr k.dtype edge)) = some out := by
  have clipped : a.tensor.map (clipVal (some c) (some edge)) = a.tensor.map fun v => Val.max v c :=
    map_congr fun v listed => clipVal_max (below v listed) below'
  rcases gives with gives | gives
  · rw [elementwise, broadcast_one single rank] at gives
    split at gives
    · rename_i typed
      rw [← typed.1, clip_scalars c edge typed.2, clipped]
      exact gives
    · cases gives
  · rw [elementwise, one_broadcast single rank] at gives
    split at gives
    · rename_i typed
      have swapped : Val.max c = fun v => Val.max v c := funext fun v => Val.max_swap c v
      rw [typed.1, clip_scalars c edge (by rw [← typed.1]; exact typed.2), clipped]
      rw [swapped, typed.1] at gives
      exact gives
    · cases gives

/-- **`Min` with one element is a bound from above**, where nothing that it leaves is below the other bound. -/
theorem min_clips (single : k.tensor.data = [c]) (rank : k.tensor.shape.length ≤ a.tensor.shape.length)
    (number : edge ≠ .nan) (above : ∀ v ∈ a.tensor.data, Val.min v c = c ∨ Val.max v edge = v)
    (gives : elementwise Val.min a k = some out ∨ elementwise Val.min k a = some out) :
    clip a (some (scalarArr k.dtype edge)) (some (scalarArr k.dtype c)) = some out := by
  have clipped : a.tensor.map (clipVal (some edge) (some c)) = a.tensor.map fun v => Val.min v c :=
    map_congr fun v listed => clipVal_min number (above v listed)
  rcases gives with gives | gives
  · rw [elementwise, broadcast_one single rank] at gives
    split at gives
    · rename_i typed
      rw [← typed.1, clip_scalars edge c typed.2, clipped]
      exact gives
    · cases gives
  · rw [elementwise, one_broadcast single rank] at gives
    split at gives
    · rename_i typed
      have swapped : Val.min c = fun v => Val.min v c := funext fun v => Val.min_swap c v
      rw [typed.1, clip_scalars edge c (by rw [← typed.1]; exact typed.2), clipped]
      rw [swapped, typed.1] at gives
      exact gives
    · cases gives

/-- **`Div` is `Mul` by other elements**, where they do the same to the elements of the dividend. -/
theorem div_multiplies [Field K] {f : Val K → Val K → Val K} {h : Val K → Val K} (outside : ∀ x, f x .nan = .nan ∧ f .nan x = .nan)
    (same : ∀ x ∈ a.tensor.data, ∀ v ∈ k.tensor.data, f x v = Val.mul x (h v)) (gives : elementwise f a k = some out) :
    elementwise Val.mul a { dtype := k.dtype, tensor := k.tensor.map h } = some out := by
  have products : broadcast f a.tensor k.tensor = broadcast Val.mul a.tensor (k.tensor.map h) := by
    apply broadcast_congr
    · intro x
      rw [show (default : Val K) = .nan from rfl, (outside x).1]
      cases x <;> rfl
    · rintro x (listed | rfl) v element
      · exact same x listed v element
      · rw [show (default : Val K) = .nan from rfl, (outside v).2]
        rfl
  rw [elementwise, ← products]
  exact gives

end Arrays

end Rkvc.Onnx
