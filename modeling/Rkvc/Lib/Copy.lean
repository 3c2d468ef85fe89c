import Rkvc.Lib.Store

/-!
# Copy plans

A loop nest that moves elements from one array to another is a list of moves
`(to, from)`. A plan that never sends two elements to one place moves what it
lists (`copy_getD`); a place holds the element of a source for every content of
both arrays only if the plan lists that move (`copy_forces`).
-/

namespace Rkvc.Lib
set_option autoImplicit false

variable {α : Type}

/-- `memcpy` of `n` elements. -/
def moveRow (dst src n : Nat) : List (Nat × Nat) := (List.range n).map fun x => (dst + x, src + x)

/-- `n` rows of `width` elements, each side with a stride of its own. -/
def moveRows (n dst dstStride src srcStride width : Nat) : List (Nat × Nat) :=
  (List.range n).flatMap fun r => moveRow (dst + r * dstStride) (src + r * srcStride) width

theorem mem_moveRow {dst src n : Nat} {m : Nat × Nat} :
    m ∈ moveRow dst src n ↔ ∃ x < n, m = (dst + x, src + x) := by
  simp only [moveRow, List.mem_map, List.mem_range]
  constructor
  · rintro ⟨x, hx, rfl⟩
    exact ⟨x, hx, rfl⟩
  · rintro ⟨x, hx, rfl⟩
    exact ⟨x, hx, rfl⟩

theorem mem_moveRows {n dst dstStride src srcStride width : Nat} {m : Nat × Nat} :
    m ∈ moveRows n dst dstStride src srcStride width ↔
      ∃ r < n, ∃ x < width, m = (dst + r * dstStride + x, src + r * srcStride + x) := by
  simp [moveRows, mem_moveRow]

/-- The moves of a plan, on the contents of the source. -/
def copy [Inhabited α] (dst : List α) (plan : List (Nat × Nat)) (src : List α) : List α :=
  store dst (plan.map fun m => (m.1, src.getD m.2 default))

/-- No place receives two elements. -/
def OneSource (plan : List (Nat × Nat)) : Prop := ∀ m ∈ plan, ∀ m' ∈ plan, m.1 = m'.1 → m.2 = m'.2

section Copy
variable [Inhabited α] {plan : List (Nat × Nat)} {dst src : List α} {p s : Nat}

theorem OneSource.agree (one : OneSource plan) (src : List α) :
    Agree (plan.map fun m => (m.1, src.getD m.2 default)) := by
  intro w hw w' hw' same
  obtain ⟨m, mem, rfl⟩ := List.mem_map.1 hw
  obtain ⟨m', mem', rfl⟩ := List.mem_map.1 hw'
  show src.getD m.2 default = src.getD m'.2 default
  rw [one m mem m' mem' same]

/-- A listed move takes place. -/
theorem copy_getD (one : OneSource plan) (mem : (p, s) ∈ plan) (inside : p < dst.length) :
    (copy dst plan src).getD p default = src.getD s default := by
  have moved : (p, src.getD s default) ∈ plan.map fun m => (m.1, src.getD m.2 default) :=
    List.mem_map.2 ⟨(p, s), mem, rfl⟩
  rw [List.getD_eq_getElem?_getD, copy, store_getElem? (one.agree src) moved inside, Option.getD_some]

/-- A place the plan leaves out keeps its element. -/
theorem copy_frame (dst src : List α) (out : ∀ m ∈ plan, m.1 ≠ p) : (copy dst plan src)[p]? = dst[p]? := by
  induction plan using List.reverseRecOn with
  | nil => rfl
  | append_singleton plan m ih =>
    have earlier := ih fun m' mem => out m' (List.mem_append_left _ mem)
    simp only [copy, store, List.map_append, List.foldl_append, List.map_cons, List.map_nil, List.foldl_cons,
      List.foldl_nil] at earlier ⊢
    rw [List.getElem?_set_ne (out m (by simp))]
    exact earlier

theorem copy_length (dst : List α) (plan : List (Nat × Nat)) (src : List α) : (copy dst plan src).length = dst.length :=
  store_length dst _

/-- Plans one after the other. -/
theorem copy_append (dst : List α) (plan later : List (Nat × Nat)) (src : List α) :
    copy dst (plan ++ later) src = copy (copy dst plan src) later src := by
  rw [copy, List.map_append, store, List.foldl_append]
  rfl

/-- A listed move inside both arrays. -/
theorem copy_getElem? (one : OneSource plan) (mem : (p, s) ∈ plan) (inside : p < dst.length) (within : s < src.length) :
    (copy dst plan src)[p]? = src[s]? := by
  have moved : (copy dst plan src).getD p default = src.getD s default := copy_getD one mem inside
  rw [List.getD_eq_getElem?_getD, List.getD_eq_getElem?_getD, List.getElem?_eq_getElem within, Option.getD_some,
    List.getElem?_eq_getElem (by rw [copy_length]; exact inside), Option.getD_some] at moved
  rw [List.getElem?_eq_getElem within, List.getElem?_eq_getElem (by rw [copy_length]; exact inside), moved]

end Copy

theorem moveRows_succ (n dst dstStride src srcStride width : Nat) :
    moveRows (n + 1) dst dstStride src srcStride width =
      moveRow dst src width ++ moveRows n (dst + dstStride) dstStride (src + srcStride) srcStride width := by
  rw [moveRows, List.range_succ_eq_map, List.flatMap_cons, List.flatMap_map, Nat.zero_mul, Nat.zero_mul, Nat.add_zero,
    Nat.add_zero]
  apply congrArg (moveRow dst src width ++ ·)
  apply List.flatMap_congr
  intro r _
  rw [Nat.succ_mul, Nat.succ_mul, Nat.add_comm (r * dstStride), Nat.add_comm (r * srcStride), Nat.add_assoc, Nat.add_assoc]

/-- `memcpy`; a byte outside of either array is a fault. -/
def memcpy [Inhabited α] (dst src : List α) (place start n : Nat) : Option (List α) :=
  if place + n ≤ dst.length ∧ start + n ≤ src.length then some (copy dst (moveRow place start n) src) else none

/-- **A place that holds the element of `s` whatever the arrays hold** is one the plan moves it to. -/
theorem copy_forces [Inhabited α] {plan : List (Nat × Nat)} {n k p s : Nat} {a b : α} (distinct : a ≠ b)
    (one : OneSource plan) (inside : p < n) (within : s < k)
    (always : ∀ dst src : List α, dst.length = n → src.length = k →
      (copy dst plan src).getD p default = src.getD s default) : (p, s) ∈ plan := by
  by_contra absent
  by_cases covered : ∃ s', (p, s') ∈ plan
  · obtain ⟨s', mem⟩ := covered
    have other : s ≠ s' := fun h => absent (h ▸ mem)
    have moved (src : List α) (len : src.length = k) : src.getD s' default = src.getD s default := by
      rw [← always (List.replicate n a) src (by simp) len, copy_getD one mem (by simpa using inside)]
    by_cases read : s' < k
    · have value := moved ((List.replicate k a).set s b) (by simp)
      simp [List.getElem_set_ne other, read, within] at value
      exact distinct value
    · have filled (c : α) : default = c := by
        have value := moved (List.replicate k c) (by simp)
        simp [read, within] at value
        exact value
      exact distinct ((filled a).symm.trans (filled b))
  · have value := always (List.replicate n a) (List.replicate k b) (by simp) (by simp)
    have kept := copy_frame (List.replicate n a) (List.replicate k b)
      fun m mem (same : m.1 = p) => covered ⟨m.2, same ▸ mem⟩
    rw [List.getD_eq_getElem?_getD, kept] at value
    simp [inside, within] at value
    exact distinct value

end Rkvc.Lib
