import Mathlib.Data.List.Forall2
import Mathlib.Data.List.Induction
import Mathlib.Data.List.Nodup

/-!
# Arrays as the result of a list of stores

A loop nest that writes into an array is the list of its stores, in order.
When two stores to one index always carry the same value, the array holds that
value at the index; when every index is stored to, the array does not depend on
what it held before.
-/

namespace Rkvc.Lib
set_option autoImplicit false

variable {α : Type}

/-! ## Rows -/

section Rows
variable {stride n r x r' x' : Nat}

/-- A position within rows of a stride is inside of the rows. -/
theorem row_lt (hr : r < n) (hx : x < stride) : r * stride + x < n * stride := by
  have next : (r + 1) * stride ≤ n * stride := Nat.mul_le_mul_right _ hr
  rw [Nat.succ_mul] at next
  omega

/-- It has one row and one column. -/
theorem row_at (hx : x < stride) : (r * stride + x) / stride = r ∧ (r * stride + x) % stride = x := by
  constructor
  · rw [Nat.mul_comm, Nat.mul_add_div (Nat.zero_lt_of_lt hx), Nat.div_eq_of_lt hx, Nat.add_zero]
  · rw [Nat.mul_comm, Nat.mul_add_mod, Nat.mod_eq_of_lt hx]

theorem row_unique (hx : x < stride) (hx' : x' < stride) (same : r * stride + x = r' * stride + x') :
    r = r' ∧ x = x' := by
  obtain ⟨row, col⟩ := row_at (r := r) hx
  obtain ⟨row', col'⟩ := row_at (r := r') hx'
  rw [same] at row col
  exact ⟨row.symm.trans row', col.symm.trans col'⟩

/-- Rows behind each other are one range. -/
theorem flatMap_rows (f : Nat → List α) (n stride : Nat) :
    ((List.range n).flatMap fun r => (List.range stride).flatMap fun x => f (r * stride + x)) =
      (List.range (n * stride)).flatMap f := by
  induction n with
  | zero => simp
  | succ n ih =>
    rw [List.range_succ, List.flatMap_append, ih, List.flatMap_singleton, Nat.succ_mul, List.range_add,
      List.flatMap_append, List.flatMap_map]

end Rows

/-! ## Stores -/

/-- Run the stores `(index, value)` on an array. -/
def store (buf : List α) (writes : List (Nat × α)) : List α :=
  writes.foldl (fun b w => b.set w.1 w.2) buf

@[simp] theorem store_length (buf : List α) (writes : List (Nat × α)) :
    (store buf writes).length = buf.length := by
  induction writes generalizing buf with
  | nil => rfl
  | cons w writes ih => exact (ih _).trans List.length_set

/-- Stores to one index agree. -/
def Agree (writes : List (Nat × α)) : Prop := ∀ w ∈ writes, ∀ w' ∈ writes, w.1 = w'.1 → w.2 = w'.2

/-- Stores to distinct places agree. -/
theorem agree_of_nodup {stores : List (Nat × α)} (once : (stores.map Prod.fst).Nodup) :
    Agree stores := by
  intro w hw w' hw' same
  have equal := List.inj_on_of_nodup_map once hw hw' same
  rw [equal]

/-- An index that is stored to holds the value stored there. -/
theorem store_getElem? {buf : List α} {writes : List (Nat × α)} {i : Nat} {a : α} (agree : Agree writes)
    (mem : (i, a) ∈ writes) (hi : i < buf.length) : (store buf writes)[i]? = some a := by
  induction writes using List.reverseRecOn with
  | nil => cases mem
  | append_singleton writes w ih =>
    have earlier : Agree writes := fun u hu u' hu' =>
      agree u (List.mem_append_left _ hu) u' (List.mem_append_left _ hu')
    simp only [store, List.foldl_append, List.foldl_cons, List.foldl_nil]
    by_cases last : w.1 = i
    · have value : a = w.2 := agree (i, a) mem w (by simp) last.symm
      subst last
      rw [value]
      exact List.getElem?_set_self (Nat.lt_of_lt_of_eq hi (store_length buf writes).symm)
    · rw [List.getElem?_set_ne last]
      apply ih earlier
      rcases List.mem_append.1 mem with h | h
      · exact h
      · rw [← List.mem_singleton.1 h] at last
        exact absurd rfl last

/-- An index that nothing is stored to is left. -/
theorem store_other {buf : List α} {writes : List (Nat × α)} {i : Nat} (out : ∀ w ∈ writes, w.1 ≠ i) :
    (store buf writes)[i]? = buf[i]? := by
  induction writes generalizing buf with
  | nil => rfl
  | cons w writes ih =>
    obtain ⟨first, out⟩ := List.forall_mem_cons.1 out
    rw [store, List.foldl_cons]
    refine (ih out).trans ?_
    rw [List.getElem?_set_ne first]

/-- The same stores, in any order. -/
theorem store_congr {buf : List α} {writes writes' : List (Nat × α)} (agree : Agree writes)
    (same : ∀ w, w ∈ writes' ↔ w ∈ writes) : store buf writes' = store buf writes := by
  have agree' : Agree writes' := fun w hw w' hw' => agree w ((same w).1 hw) w' ((same w').1 hw')
  apply List.ext_getElem?
  intro i
  by_cases stored : ∃ a, (i, a) ∈ writes
  · obtain ⟨a, mem⟩ := stored
    by_cases hi : i < buf.length
    · rw [store_getElem? agree mem hi, store_getElem? agree' ((same _).2 mem) hi]
    · rw [List.getElem?_eq_none (by simpa using hi), List.getElem?_eq_none (by simpa using hi)]
  · have out : ∀ w ∈ writes, w.1 ≠ i := by
      rintro ⟨j, a⟩ mem rfl
      exact stored ⟨a, mem⟩
    rw [store_other out, store_other fun w mem => out w ((same w).1 mem)]

/-- Every index below `n` is stored to. -/
def Cover (n : Nat) (writes : List (Nat × α)) : Prop := ∀ i, i < n → ∃ a, (i, a) ∈ writes

/-- Stores that reach every index forget the array. -/
theorem store_forget {buf : List α} (buf' : List α) {writes : List (Nat × α)} (agree : Agree writes)
    (cover : Cover buf.length writes) (len : buf'.length = buf.length) :
    store buf writes = store buf' writes := by
  apply List.ext_getElem?
  intro i
  by_cases hi : i < buf.length
  · obtain ⟨a, mem⟩ := cover i hi
    rw [store_getElem? agree mem hi, store_getElem? agree mem (by omega)]
  · rw [List.getElem?_eq_none (by simpa using hi), List.getElem?_eq_none (by simpa [len] using hi)]

/-- Stores to every index in turn leave their values. -/
theorem store_range {buf : List α} {writes : List (Nat × α)} (turn : writes.map Prod.fst = List.range buf.length) :
    store buf writes = writes.map Prod.snd := by
  have count : writes.length = buf.length := by
    rw [← List.length_map Prod.fst, turn, List.length_range]
  have agree : Agree writes := agree_of_nodup (by rw [turn]; exact List.nodup_range)
  apply List.ext_getElem?
  intro i
  by_cases hi : i < buf.length
  · have place : writes[i].1 = i := by
      have same : (writes.map Prod.fst)[i]? = (List.range buf.length)[i]? := by rw [turn]
      rw [List.getElem?_map, List.getElem?_eq_getElem (by omega), List.getElem?_range hi] at same
      exact Option.some.inj same
    have mem : (writes[i].1, writes[i].2) ∈ writes := List.getElem_mem _
    rw [place] at mem
    rw [store_getElem? agree mem hi, List.getElem?_map, List.getElem?_eq_getElem (by omega)]
    rfl
  · rw [List.getElem?_eq_none (by simpa using hi), List.getElem?_eq_none (by rw [List.length_map]; omega)]

/-- What holds of every stored value holds of every element. -/
theorem forall_store {buf : List α} {writes : List (Nat × α)} {P : α → Prop} (agree : Agree writes)
    (cover : Cover buf.length writes) (values : ∀ w ∈ writes, P w.2) : ∀ a ∈ store buf writes, P a := by
  intro a ha
  obtain ⟨i, hi, rfl⟩ := List.mem_iff_getElem.1 ha
  obtain ⟨b, mem⟩ := cover i (by simpa using hi)
  have value := store_getElem? agree mem (by simpa using hi)
  rw [List.getElem?_eq_getElem hi, Option.some.injEq] at value
  rw [value]
  exact values _ mem

/-- A loop whose every turn succeeds. -/
theorem mapM_some {β : Type} {f : α → Option β} {g : α → β} {l : List α} (each : ∀ a ∈ l, f a = some (g a)) :
    l.mapM f = some (l.map g) := by
  induction l with
  | nil => rfl
  | cons a l ih =>
    rw [List.mapM_cons, each a List.mem_cons_self, ih fun b hb => each b (List.mem_cons_of_mem a hb)]
    rfl

/-- A loop succeeds exactly when every turn does. -/
theorem isSome_mapM {β : Type} (f : α → Option β) : ∀ l : List α, (l.mapM f).isSome ↔ ∀ a ∈ l, (f a).isSome
  | [] => by simp
  | a :: rest => by
    rw [List.mapM_cons, List.forall_mem_cons, ← isSome_mapM f rest]
    cases f a with
    | none => simp
    | some b => cases rest.mapM f <;> simp

/-- Each element has its own result. -/
theorem mapM_some_forall₂ {β : Type} {f : α → Option β} :
    ∀ {l : List α} {out : List β}, l.mapM f = some out → List.Forall₂ (fun a b => f a = some b) l out
  | [], out, mapped => by
    cases mapped
    exact .nil
  | a :: rest, out, mapped => by
    rw [List.mapM_cons] at mapped
    obtain ⟨b, first, mapped⟩ := Option.bind_eq_some_iff.mp mapped
    obtain ⟨bs, others, mapped⟩ := Option.bind_eq_some_iff.mp mapped
    cases mapped
    exact .cons first (mapM_some_forall₂ others)

end Rkvc.Lib
