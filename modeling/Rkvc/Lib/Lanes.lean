import Mathlib.Data.List.Basic
import Mathlib.Tactic.Common

/-!
# Lanes

A vector register is the list of its lanes. Shuffles name lanes only, so they are
the same at every lane type; a register is reinterpreted at twice or half the
width by joining two lanes or splitting one (`Halves`). Loads and stores are
checked against the length of the array.
-/

namespace Rkvc.Lib
set_option autoImplicit false

variable {α β : Type}

/-! ## Shuffles -/

/-- The even lanes of two registers, in turn. -/
def trn1 : List α → List α → List α
  | a :: _ :: as, b :: _ :: bs => a :: b :: trn1 as bs
  | _, _ => []

/-- The odd lanes of two registers, in turn. -/
def trn2 : List α → List α → List α
  | _ :: a :: as, _ :: b :: bs => a :: b :: trn2 as bs
  | _, _ => []

/-- A lane that holds two of half its width. -/
structure Halves (α β : Type) where
  join : α → α → β
  low : β → α
  high : β → α
  low_join : ∀ a b, low (join a b) = a
  high_join : ∀ a b, high (join a b) = b

/-- Two lanes as one, the low half first. -/
def Halves.widen (w : Halves α β) : List α → List β
  | a :: b :: rest => w.join a b :: w.widen rest
  | _ => []

/-- One lane as two. -/
def Halves.narrow (w : Halves α β) : List β → List α
  | [] => []
  | c :: rest => w.low c :: w.high c :: w.narrow rest

attribute [simp] Halves.low_join Halves.high_join

/-- The lanes of an interleaved load. -/
def evens : List α → List α
  | a :: _ :: rest => a :: evens rest
  | _ => []

def odds : List α → List α
  | _ :: b :: rest => b :: odds rest
  | _ => []

/-- The elements of an interleaved store. -/
def interleave : List α → List α → List α
  | a :: as, b :: bs => a :: b :: interleave as bs
  | _, _ => []

theorem evens_range' (f : Nat → α) (first n : Nat) :
    evens ((List.range' first (2 * n)).map f) = (List.range n).map fun k => f (first + 2 * k) := by
  induction n generalizing first with
  | zero => rfl
  | succ n ih =>
    rw [Nat.mul_succ, List.range'_succ, List.range'_succ, List.map_cons, List.map_cons, evens, ih, List.range_succ_eq_map,
      List.map_cons, List.map_map]
    congr 2
    funext k
    show f (first + 1 + 1 + 2 * k) = f (first + 2 * (k + 1))
    congr 1
    omega

theorem interleave_map (f g : Nat → α) (l : List Nat) :
    interleave (l.map f) (l.map g) = l.flatMap fun k => [f k, g k] := by
  induction l with
  | nil => rfl
  | cons k l ih => rw [List.map_cons, List.map_cons, interleave, ih, List.flatMap_cons, List.cons_append, List.singleton_append]

/-! ## Loads and stores -/

/-- `n` elements. -/
def ld1 (n : Nat) (src : List α) (i : Nat) : Option (List α) :=
  if i + n ≤ src.length then some ((src.drop i).take n) else none

/-- A store of one element, if it is inside. -/
def put (size i : Nat) (a : α) : Option (List (Nat × α)) := if i < size then some [(i, a)] else none

/-- A store of all lanes. -/
def st1 (size i : Nat) (lanes : List α) : Option (List (Nat × α)) :=
  if i + lanes.length ≤ size then some ((List.range' i lanes.length).zip lanes) else none

theorem getElem?_getD {src : List α} {i : Nat} (inside : i < src.length) (d : α) : src[i]? = some (src.getD i d) := by
  rw [List.getD_eq_getElem?_getD, List.getElem?_eq_getElem inside, Option.getD_some]

theorem getD_mem {src : List α} {i : Nat} (inside : i < src.length) (d : α) : src.getD i d ∈ src :=
  List.mem_of_getElem? (getElem?_getD inside d)

theorem getD_map_range {n k : Nat} (hk : k < n) (f : Nat → α) (d : α) : ((List.range n).map f).getD k d = f k := by
  rw [List.getD_eq_getElem?_getD, List.getElem?_map, List.getElem?_range hk]
  rfl

theorem ld1_eq {src : List α} {n i : Nat} (inside : i + n ≤ src.length) (d : α) :
    ld1 n src i = some ((List.range n).map fun k => src.getD (i + k) d) := by
  rw [ld1, if_pos inside]
  congr 1
  apply List.ext_getElem
  · rw [List.length_take, List.length_drop, List.length_map, List.length_range]
    omega
  · intro k left right
    rw [List.length_map, List.length_range] at right
    have read := getElem?_getD (show i + k < src.length by omega) d
    rw [List.getElem?_eq_getElem (by omega), Option.some.injEq] at read
    rw [List.getElem_take, List.getElem_drop, List.getElem_map, List.getElem_range, read]

theorem put_eq {size i : Nat} (inside : i < size) (a : α) : put size i a = some [(i, a)] := if_pos inside

theorem st1_eq {size i n : Nat} (inside : i + n ≤ size) (f : Nat → α) :
    st1 size i ((List.range n).map f) = some ((List.range n).map fun k => (i + k, f k)) := by
  rw [st1, List.length_map, List.length_range, if_pos inside, List.range'_eq_map_range, List.zip_map']

theorem zip_pairs (f g : Nat → α) (i n : Nat) :
    (List.range' i (2 * n)).zip ((List.range n).flatMap fun k => [f k, g k]) =
      (List.range n).flatMap fun k => [(i + k * 2, f k), (i + k * 2 + 1, g k)] := by
  induction n generalizing i f g with
  | zero => rfl
  | succ n ih =>
    rw [Nat.mul_succ, List.range'_succ, List.range'_succ, List.range_succ_eq_map, List.flatMap_cons, List.flatMap_cons,
      List.flatMap_map, List.flatMap_map]
    simp only [List.cons_append, List.nil_append, List.zip_cons_cons, ih, Nat.zero_mul, Nat.add_zero]
    congr 3
    funext k
    have place : i + 1 + 1 + k * 2 = i + k.succ * 2 := by omega
    rw [place]

/-- An interleaved store. -/
theorem st1_pairs {size i n : Nat} (inside : i + n * 2 ≤ size) (f g : Nat → α) :
    st1 size i ((List.range n).flatMap fun k => [f k, g k]) =
      some ((List.range n).flatMap fun k => [(i + k * 2, f k), (i + k * 2 + 1, g k)]) := by
  have length : ((List.range n).flatMap fun k => [f k, g k]).length = 2 * n := by
    simp [List.length_flatMap, Nat.mul_comm]
  rw [st1, length, if_pos (by omega), zip_pairs]

end Rkvc.Lib
