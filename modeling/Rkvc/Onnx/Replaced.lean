import Rkvc.Onnx.NpuOps
import Rkvc.Onnx.Rewrite

/-!
# What nodes are replaced by

Each node that is replaced is of one of four kinds, and comes with arrays and names that nothing
had (`replacement_some`). Gone through in order, the nodes of a graph get theirs without a clash
(`replacements_stand`).
-/

namespace Rkvc.Onnx
set_option autoImplicit false
open Lib

variable {K : Type}

/-! ## What is added -/

/-- Arrays and names that are added, under names that nothing had. -/
structure Grows (st st' : Rewriting K) (added : List (Initializer K)) (temps : List String) : Prop where
  initializer : st'.initializer = st.initializer ++ added
  names : ∀ x ∈ st.names, x ∈ st'.names
  arrays : ∀ i ∈ added, i.name ∉ st.names ∧ i.name ∈ st'.names ∧ i.name ≠ ""
  once : (added.map (·.name)).Nodup
  temps : ∀ t ∈ temps, t ∉ st.names ∧ t ∈ st'.names ∧ t ≠ "" ∧ t ∉ added.map (·.name)

/-- One node after the other. -/
theorem Grows.append {st st₁ st₂ : Rewriting K} {own added : List (Initializer K)} {temps : List String}
    (first : Grows st st₁ own temps) (rest : Grows st₁ st₂ added []) : Grows st st₂ (own ++ added) [] := by
  constructor
  · rw [rest.initializer, first.initializer, List.append_assoc]
  · exact fun x there => rest.names x (first.names x there)
  · intro i there
    rcases List.mem_append.mp there with mine | next
    · obtain ⟨new, has, named⟩ := first.arrays i mine
      exact ⟨new, rest.names _ has, named⟩
    · obtain ⟨new, has, named⟩ := rest.arrays i next
      exact ⟨fun before => new (first.names _ before), has, named⟩
  · rw [List.map_append]
    refine List.nodup_append.mpr ⟨first.once, rest.once, ?_⟩
    rintro x mine y next rfl
    obtain ⟨i, own, rfl⟩ := List.mem_map.mp mine
    obtain ⟨j, later, same⟩ := List.mem_map.mp next
    apply (rest.arrays j later).1
    rw [same]
    exact (first.arrays i own).2.1
  · exact fun t none => absurd none List.not_mem_nil

theorem candidate_named {stem : String} (named : stem ≠ "") (n : Nat) : candidate stem n ≠ "" := by
  by_cases first : n = 0
  · rw [candidate, if_pos first]
    exact named
  · intro empty
    have chars : (candidate stem n).toList = _ := candidate_later first
    rw [empty] at chars
    exact absurd chars (by simp)

theorem uniqueFrom_candidate (existing : List String) (stem : String) (fuel n : Nat) :
    ∃ k, uniqueFrom existing stem fuel n = candidate stem k := by
  induction fuel generalizing n with
  | zero => exact ⟨n, rfl⟩
  | succ fuel ih =>
    rw [uniqueFrom]
    split
    · exact ih (n + 1)
    · exact ⟨n, rfl⟩

theorem unique_named (existing : List String) {stem : String} (named : stem ≠ "") : unique existing stem ≠ "" := by
  obtain ⟨k, same⟩ := uniqueFrom_candidate existing stem existing.length 0
  rw [unique, same]
  exact candidate_named named k

/-- A name is made up. -/
theorem fresh_takes (st : Rewriting K) {stem : String} (named : stem ≠ "") :
    ∃ x, x ∉ st.names ∧ x ≠ "" ∧ st.fresh stem = (x, { st with names := x :: st.names }) :=
  ⟨_, unique_fresh st.names stem, unique_named st.names named, rfl⟩

theorem suffixed (x y : String) (named : y ≠ "") : toString x ++ toString y ≠ "" := by
  intro empty
  exact named (String.append_eq_empty_iff.mp empty).2

variable [Field K] [LinearOrder K]

/-- **The nodes that stand for one**, with the arrays and the names that are made up for them. -/
inductive Replaced (np : NumPy K) (g : Graph K) (node : NodeProto K) :
    List (NodeProto K) → List (Initializer K) → List String → Prop
  | spaceToDepth {src dst s1 s2 t1 t2 r1 tr r2 : String} {rest more : List String} {n c h w bs : Nat}
      (op : node.opType = "SpaceToDepth") (input : node.input = src :: rest) (output : node.output = dst :: more)
      (blocks : lastBlocksize node = bs) (large : 2 ≤ bs) (shape : g.shapeOf src = some [n, c, h, w])
      (rows : h % bs = 0) (columns : w % bs = 0) (apart : t1 ≠ t2) :
      Replaced np g node
        [{ opType := "Reshape", name := r1, input := [src, s1], output := [t1] },
          { opType := "Transpose", name := tr, input := [t1], output := [t2],
            attributes := [{ name := "perm", ints := [0, 3, 5, 1, 2, 4] }] },
          { opType := "Reshape", name := r2, input := [t2, s2], output := [dst] }]
        [⟨s1, i64Tensor [n, c, h / bs, bs, w / bs, bs]⟩, ⟨s2, i64Tensor [n, c * bs * bs, h / bs, w / bs]⟩] [t1, t2]
  | max {a b data k dst bound other clip : String} {more : List String} {v : Val K}
      (op : node.opType = "Max") (input : node.input = [a, b]) (output : node.output = dst :: more)
      (sides : k = a ∧ data = b ∨ k = b ∧ data = a) (scalar : g.constantScalar k = some v)
      (open_ : g.constantScalar data = none) :
      Replaced np g node
        [{ opType := "Clip", name := clip, input := [data, bound, other], output := [dst] }]
        [⟨bound, scalarTensor np (np.cast .double v) (g.elemTypeOf data .float)⟩,
          ⟨other, scalarTensor np (clipEdge np) (g.elemTypeOf data .float)⟩] []
  | min {a b data k dst bound other clip : String} {more : List String} {v : Val K}
      (op : node.opType = "Min") (input : node.input = [a, b]) (output : node.output = dst :: more)
      (sides : k = a ∧ data = b ∨ k = b ∧ data = a) (scalar : g.constantScalar k = some v)
      (open_ : g.constantScalar data = none) :
      Replaced np g node
        [{ opType := "Clip", name := clip, input := [data, other, bound], output := [dst] }]
        [⟨bound, scalarTensor np (np.cast .double v) (g.elemTypeOf data .float)⟩,
          ⟨other, scalarTensor np (clipEdgeNeg np) (g.elemTypeOf data .float)⟩] []
  | div {lhs rhs dst quotient mul : String} {more : List String} {arr : NdArray K}
      (op : node.opType = "Div") (input : node.input = [lhs, rhs]) (output : node.output = dst :: more)
      (constant : g.constant rhs = some arr) (nonzero : Val.fin 0 ∉ arr.tensor.data) :
      Replaced np g node
        [{ opType := "Mul", name := mul, input := [lhs, quotient], output := [dst] }]
        [⟨quotient, reciprocals np arr⟩] []

section Replacement

variable {np : NumPy K} {g : Graph K} {node : NodeProto K} {st st' : Rewriting K} {group : List (NodeProto K)}

theorem replaceSpaceToDepth_some (op : node.opType = "SpaceToDepth")
    (made : replaceSpaceToDepth g node st = (some group, st')) :
    ∃ added temps, Replaced np g node group added temps ∧ Grows st st' added temps := by
  unfold replaceSpaceToDepth at made
  split at made
  · rename_i src rest dst more input output
    dsimp only at made
    split at made
    · cases made
    rename_i large
    split at made
    · rename_i n c h w shape
      split at made
      · cases made
      rename_i divides
      cases made
      obtain ⟨s1, new1, named1, e1⟩ := fresh_takes st (suffixed dst "__std_shape1" (by decide))
      rw [e1]
      dsimp only
      obtain ⟨s2, new2, named2, e2⟩ := fresh_takes { st with names := s1 :: st.names }
        (suffixed dst "__std_shape2" (by decide))
      rw [e2]
      dsimp only
      obtain ⟨t1, new3, named3, e3⟩ := fresh_takes { st with names := s2 :: s1 :: st.names }
        (suffixed dst "__std_r1" (by decide))
      rw [e3]
      dsimp only
      obtain ⟨t2, new4, named4, e4⟩ := fresh_takes { st with names := t1 :: s2 :: s1 :: st.names }
        (suffixed dst "__std_t" (by decide))
      rw [e4]
      dsimp only [List.mem_cons, not_or] at new2 new3 new4 ⊢
      simp only [List.mem_cons, not_or] at new2 new3 new4
      have bs : lastBlocksize node = ((lastBlocksize node).toNat : Int) := by omega
      refine ⟨_, _, .spaceToDepth op input output bs (by omega) shape (by omega) (by omega) (Ne.symm new4.1), ?_⟩
      constructor
      · simp [Rewriting.append, Rewriting.fresh]
      · intro x there
        simp [Rewriting.append, Rewriting.fresh, there]
      · simp [Rewriting.append, Rewriting.fresh, new1, new2, named1, named2]
      · simp [Ne.symm new2.1]
      · simp [Rewriting.append, Rewriting.fresh, new3, new4, named3, named4]
    · cases made
  · cases made

omit [LinearOrder K] in
theorem clipNodes_eq (np : NumPy K) (g : Graph K) (data : String) (v : Val K) (dst : String) (asMin : Bool)
    (nodeName : String) (st : Rewriting K) :
    ∃ bound other clip, (clipNodes np g data v dst asMin nodeName st).1 =
        [{ opType := "Clip", name := clip,
           input := if asMin then [data, bound, other] else [data, other, bound], output := [dst] }] ∧
      ∀ report, Grows st { (clipNodes np g data v dst asMin nodeName st).2 with report }
        [⟨bound, scalarTensor np v (g.elemTypeOf data .float)⟩,
          ⟨other, scalarTensor np (if asMin then clipEdge np else clipEdgeNeg np) (g.elemTypeOf data .float)⟩] [] := by
  obtain ⟨bound, new1, named1, e1⟩ := fresh_takes st (suffixed dst "__clip_bound" (by decide))
  obtain ⟨other, new2, named2, e2⟩ := fresh_takes { st with names := bound :: st.names }
    (suffixed dst "__clip_other" (by decide))
  unfold clipNodes
  rw [e1]
  dsimp only
  rw [e2]
  dsimp only
  simp only [List.mem_cons, not_or] at new2
  refine ⟨bound, other, _, rfl, fun report => ?_⟩
  constructor
  · simp [Rewriting.append, Rewriting.fresh]
  · intro x there
    simp [Rewriting.append, Rewriting.fresh, there]
  · simp [Rewriting.append, Rewriting.fresh, new1, new2, named1, named2]
  · simp [Ne.symm new2.1]
  · exact fun _ none => absurd none List.not_mem_nil

theorem replaceMinmax_some (asMin : Bool) (op : node.opType = if asMin then "Max" else "Min")
    (made : replaceMinmax np g node (constantScalars np g) st asMin = (some group, st')) :
    ∃ added temps, Replaced np g node group added temps ∧ Grows st st' added temps := by
  unfold replaceMinmax at made
  split at made
  · rename_i a b dst more input output
    dsimp only at made
    split at made
    · rename_i v here none
      obtain ⟨w, scalar, rfl⟩ := Option.map_eq_some_iff.mp here
      obtain ⟨bound, other, clip, nodes, grows⟩ := clipNodes_eq np g b (np.cast .double w) dst asMin
        (if node.name ≠ "" then node.name else node.opType) st
      rw [Prod.mk.injEq, Option.some.injEq, nodes] at made
      obtain ⟨rfl, rfl⟩ := made
      cases asMin with
      | true => exact ⟨_, _, .max op input output (.inl ⟨rfl, rfl⟩) scalar (Option.map_eq_none_iff.mp none), grows _⟩
      | false => exact ⟨_, _, .min op input output (.inl ⟨rfl, rfl⟩) scalar (Option.map_eq_none_iff.mp none), grows _⟩
    · rename_i v none here
      obtain ⟨w, scalar, rfl⟩ := Option.map_eq_some_iff.mp here
      obtain ⟨bound, other, clip, nodes, grows⟩ := clipNodes_eq np g a (np.cast .double w) dst asMin
        (if node.name ≠ "" then node.name else node.opType) st
      rw [Prod.mk.injEq, Option.some.injEq, nodes] at made
      obtain ⟨rfl, rfl⟩ := made
      cases asMin with
      | true => exact ⟨_, _, .max op input output (.inr ⟨rfl, rfl⟩) scalar (Option.map_eq_none_iff.mp none), grows _⟩
      | false => exact ⟨_, _, .min op input output (.inr ⟨rfl, rfl⟩) scalar (Option.map_eq_none_iff.mp none), grows _⟩
    · cases made
  · cases made

omit [Field K] [LinearOrder K] in
/-- An array is looked up as if nothing was added. -/
theorem init_append {g' : Graph K} {added : List (Initializer K)} {name : String}
    (initializer : g'.initializer = g.initializer ++ added) (other : ∀ i ∈ added, i.name ≠ name) :
    g'.init name = g.init name := by
  have none : added.find? (·.name = name) = none := List.find?_eq_none.mpr fun i listed => by simpa using other i listed
  rw [Graph.init, Graph.init, initializer, List.find?_append, none, Option.or_none]

theorem replaceDiv_some (op : node.opType = "Div") {earlier : List (Initializer K)}
    (built : st.initializer = g.initializer ++ earlier) (other : ∀ i ∈ earlier, i.name ∉ node.input)
    (made : replaceDiv np g node st = (some group, st')) :
    ∃ added temps, Replaced np g node group added temps ∧ Grows st st' added temps := by
  unfold replaceDiv at made
  split at made
  · rename_i lhs rhs dst more input output
    have lookup : { g with initializer := st.initializer }.constant rhs = g.constant rhs := by
      have same : { g with initializer := st.initializer }.init rhs = g.init rhs := by
        apply init_append built
        intro i listed same
        apply other i listed
        rw [input, same]
        exact List.mem_cons_of_mem _ List.mem_cons_self
      rw [Graph.constant, Graph.constant, same]
    rw [lookup] at made
    split at made
    · cases made
    · rename_i arr constant
      split at made
      · cases made
      rename_i nonzero
      cases made
      obtain ⟨quotient, new, named, e⟩ := fresh_takes st (suffixed dst "__rcp" (by decide))
      rw [e]
      dsimp only
      refine ⟨_, _, .div op input output constant nonzero, ?_⟩
      constructor
      · simp [Rewriting.append, Rewriting.fresh]
      · intro x there
        simp [Rewriting.append, Rewriting.fresh, there]
      · simp [Rewriting.append, Rewriting.fresh, new, named]
      · simp
      · exact fun _ none => absurd none List.not_mem_nil
  · cases made

/-- **What a node is replaced by.** -/
theorem replacement_some {earlier : List (Initializer K)} (built : st.initializer = g.initializer ++ earlier)
    (other : ∀ i ∈ earlier, i.name ∉ node.input)
    (made : replacement np g node (constantScalars np g) st = (some group, st')) :
    ∃ added temps, Replaced np g node group added temps ∧ Grows st st' added temps := by
  unfold replacement at made
  split at made
  · exact replaceSpaceToDepth_some ‹_› made
  split at made
  · rename_i op
    exact replaceMinmax_some true op made
  split at made
  · rename_i op
    exact replaceMinmax_some false op made
  split at made
  · exact replaceDiv_some ‹_› built other made
  · cases made

/-- A node that is left adds nothing. -/
theorem replacement_none {scalars : String → Option (Val K)} (left : replacement np g node scalars st = (none, st')) :
    st'.names = st.names ∧ st'.initializer = st.initializer := by
  -- whatever is not replaced is skipped, or another operator
  simp only [replacement, replaceSpaceToDepth, replaceMinmax, replaceDiv] at left
  repeat' split at left
  all_goals cases left <;> exact ⟨rfl, rfl⟩

end Replacement

/-! ## All nodes -/

section All

variable {np : NumPy K} {g : Graph K}

/-- What is added for a node, beside all that is added. -/
structure Apart (g : Graph K) (added own : List (Initializer K)) (temps : List String) : Prop where
  own : ∀ i ∈ own, i ∈ added
  arrays : ∀ i ∈ added, i.name ∉ temps
  temps : ∀ t ∈ temps, t ≠ "" ∧ t ∉ g.allNames

/-- **What stands for a node**: itself, or what it is replaced by. -/
inductive Stands (np : NumPy K) (g : Graph K) (added : List (Initializer K)) (node : NodeProto K) :
    List (NodeProto K) → Prop
  | itself : Stands np g added node [node]
  | replaced {group : List (NodeProto K)} {own : List (Initializer K)} {temps : List String}
      (kind : Replaced np g node group own temps) (apart : Apart g added own temps) : Stands np g added node group

omit [Field K] [LinearOrder K] in
theorem mem_allNames {x : String} (named : x ≠ "") (known : x ∈ g.initNames ∨ x ∈ g.inputNames ∨ x ∈ g.outputNames ∨
    ∃ n ∈ g.node, x ∈ n.input ∨ x ∈ n.output) : x ∈ g.allNames := by
  refine List.mem_filter.mpr ⟨?_, decide_eq_true named⟩
  simp only [Graph.inputNames, Graph.outputNames, List.mem_map] at known
  simp only [List.mem_append, List.mem_map, List.mem_flatMap]
  rcases known with init | ⟨vi, listed, rfl⟩ | ⟨vi, listed, rfl⟩ | ⟨n, listed, slots⟩
  · exact .inl (.inl init)
  · exact .inl (.inr ⟨vi, .inl (.inl listed), rfl⟩)
  · exact .inl (.inr ⟨vi, .inr listed, rfl⟩)
  · exact .inr ⟨n, listed, .inl slots⟩

/-- **The nodes of a graph** get what stands for them under names that nothing has. -/
theorem replacements_stand (np : NumPy K) {nodes : List (NodeProto K)} {st : Rewriting K} {earlier : List (Initializer K)}
    (listed : ∀ n ∈ nodes, n ∈ g.node) (built : st.initializer = g.initializer ++ earlier)
    (other : ∀ i ∈ earlier, i.name ≠ "" ∧ i.name ∉ g.allNames) (known : ∀ x ∈ g.allNames, x ∈ st.names) :
    ∃ added, Grows st (replacements np g (constantScalars np g) nodes st).2 added [] ∧
      ∀ all : List (Initializer K), (∀ i ∈ added, i ∈ all) →
        (∀ i ∈ all, i.name ∈ st.names ∨ i ∈ added ∨
          i.name ∉ (replacements np g (constantScalars np g) nodes st).2.names) →
        List.Forall₂ (Stands np g all) nodes (replacements np g (constantScalars np g) nodes st).1 := by
  induction nodes generalizing st earlier with
  | nil =>
    refine ⟨[], ?_, fun all _ _ => .nil⟩
    constructor
    · exact (List.append_nil _).symm
    · exact fun x there => there
    · exact fun i none => absurd none List.not_mem_nil
    · exact List.nodup_nil
    · exact fun t none => absurd none List.not_mem_nil
  | cons node nodes ih =>
    have listed' : ∀ n ∈ nodes, n ∈ g.node := fun n later => listed n (List.mem_cons_of_mem _ later)
    have input : ∀ i ∈ earlier, i.name ∉ node.input := by
      intro i there reads
      obtain ⟨named, new⟩ := other i there
      exact new (mem_allNames named (.inr (.inr (.inr ⟨node, listed node List.mem_cons_self, .inl reads⟩))))
    rw [replacements]
    dsimp only
    cases one : replacement np g node (constantScalars np g) st with
    | mk made st₁ =>
      cases made with
      | none =>
        obtain ⟨names, initializer⟩ := replacement_none one
        obtain ⟨added, grows, stands⟩ := ih listed' (initializer.trans built) other (names ▸ known)
        refine ⟨added, ?_, fun all among clear => .cons .itself (stands all among (names ▸ clear))⟩
        obtain ⟨rest, more, arrays, once, temps⟩ := grows
        rw [initializer] at rest
        rw [names] at more arrays temps
        exact ⟨rest, more, arrays, once, temps⟩
      | some group =>
        obtain ⟨own, temps, kind, first⟩ := replacement_some built input one
        have other₁ : ∀ i ∈ earlier ++ own, i.name ≠ "" ∧ i.name ∉ g.allNames := by
          intro i there
          rcases List.mem_append.mp there with before | now
          · exact other i before
          · obtain ⟨new, -, named⟩ := first.arrays i now
            exact ⟨named, fun has => new (known _ has)⟩
        have built₁ : st₁.initializer = g.initializer ++ (earlier ++ own) := by
          rw [first.initializer, built, List.append_assoc]
        obtain ⟨added, grows, stands⟩ := ih listed' built₁ other₁ fun x has => first.names x (known x has)
        refine ⟨own ++ added, ?_, fun all among clear => .cons (.replaced kind ?_) (stands all ?_ ?_)⟩
        · exact first.append grows
        · constructor
          · exact fun i now => among i (List.mem_append_left _ now)
          · intro i there temp
            obtain ⟨new, has, -, apart⟩ := first.temps _ temp
            rcases clear i there with before | now | later
            · exact new before
            · rcases List.mem_append.mp now with mine | next
              · exact apart (List.mem_map_of_mem mine)
              · exact (grows.arrays i next).1 has
            · exact later (grows.names _ has)
          · intro t temp
            obtain ⟨new, -, named, -⟩ := first.temps t temp
            exact ⟨named, fun has => new (known t has)⟩
        · exact fun i next => among i (List.mem_append_right _ next)
        · intro i there
          rcases clear i there with before | now | later
          · exact .inl (first.names _ before)
          · rcases List.mem_append.mp now with mine | next
            · exact .inl (first.arrays i mine).2.1
            · exact .inr (.inl next)
          · exact .inr (.inr later)

/-- The rewritten nodes, and what is added for them. -/
structure Rewrites (np : NumPy K) (g g' : Graph K) (groups : List (List (NodeProto K)))
    (added : List (Initializer K)) : Prop where
  node : g'.node = groups.flatten
  initializer : g'.initializer = g.initializer ++ added
  input : g'.input = g.input
  output : g'.output = g.output
  arrays : ∀ i ∈ added, i.name ≠ "" ∧ i.name ∉ g.allNames
  once : (added.map (·.name)).Nodup
  stands : List.Forall₂ (Stands np g added) g.node groups

/-- **What the nodes are replaced by**, all together. -/
theorem rewriteNodes_spec (np : NumPy K) (g : Graph K) (report : RewriteReport) :
    ∃ groups added, Rewrites np g (rewriteNodes np g report).1 groups added := by
  let st : Rewriting K := { names := g.allNames, initializer := g.initializer, report }
  have built : st.initializer = g.initializer ++ [] := (List.append_nil _).symm
  obtain ⟨added, grows, stands⟩ := replacements_stand np (fun _ listed => listed) built
    (fun i none => absurd none List.not_mem_nil) fun _ known => known
  refine ⟨_, added, rfl, grows.initializer, rfl, rfl, fun i listed => ?_, grows.once, ?_⟩
  · obtain ⟨new, -, named⟩ := grows.arrays i listed
    exact ⟨named, new⟩
  · exact stands added (fun _ own => own) fun _ own => .inr (.inl own)

end All

end Rkvc.Onnx
