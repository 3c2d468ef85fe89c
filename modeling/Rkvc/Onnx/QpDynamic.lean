import Mathlib.Data.List.Infix
import Rkvc.Mlvc.Qptab
import Rkvc.Onnx.Graph

/-!
# Graphs with QP rows

`make_qp_dynamic` takes the tables that a graph gathers from by its QP out of the graph, and
gives it their rows as inputs. What it accepts it does not always rewrite into the same
graph: the gathers' axes, other readers of the tables and outputs of the graph are not looked
at (`qp_dynamic_spec`).
-/

namespace Rkvc.Onnx
set_option autoImplicit false
open Lib

/-! ## Names -/

/-- `str.lower`, as far as the keys can tell. -/
def lowered (s : String) : List Char := s.toList.map Char.toLower

/-- `key.lower() in name.lower()`. -/
def hasKey (key name : String) : Bool := lowered key <:+: lowered name

def qIndexNames : List String := ["q_index_shifted", "q_index"]

/-- `s.split(".")[-1]`. -/
def shortName (s : String) : String := String.ofList (s.toList.reverse.takeWhile (· ≠ '.')).reverse

def rowName (table : String) : String := shortName table ++ "_row"

/-- The name of a `dtype`. -/
def DType.numpy : DType → String
  | .float => "float32"
  | .uint8 => "uint8"
  | .int8 => "int8"
  | .uint16 => "uint16"
  | .int16 => "int16"
  | .int32 => "int32"
  | .int64 => "int64"
  | .bool => "bool"
  | .float16 => "float16"
  | .double => "float64"
  | .uint32 => "uint32"
  | .uint64 => "uint64"
  | .bfloat16 => "bfloat16"

/-- A shape, as it is printed. -/
def shapeText : List Nat → String
  | [n] => s!"({n},)"
  | shape => "(" ++ ", ".intercalate (shape.map toString) ++ ")"

/-! ## The rewriter -/

structure QpTable where
  name : String
  source : String
  rows : Nat
  cols : Nat
  /-- Halves, in row-major order. -/
  dataFp16 : List UInt16
  deriving DecidableEq, Repr

/-- What the loop over the gathers collects. -/
structure QpState where
  tables : List QpTable := []
  dropNodes : List Nat := []
  dropInits : List String := []
  rewires : List (String × String) := []

variable {K : Type}

def Graph.qInputs (g : Graph K) (names : List String) : List String :=
  g.inputNames.filter fun name => name ∉ g.initNames ∧ names.any (hasKey · name)

/-- The table of a gather, if it is not known yet. -/
def addTable (tobytes : Val K → UInt16) (s : QpState) (table : String) (arr : NdArray K) :
    Except OnnxRewriteError QpState :=
  match arr.tensor.shape with
  | [rows, cols, 1, 1] =>
    let name := rowName table
    match s.tables.find? (·.name = name) with
    | some known => if known.source ≠ table then .error ⟨s!"行输入名冲突: {name}"⟩ else .ok s
    | none =>
      if arr.dtype ≠ .float16 then .error ⟨s!"QP 表 {table} dtype {arr.dtype.numpy} 不是 float16"⟩
      else
        let added : QpTable := { name, source := table, rows, cols, dataFp16 := arr.tensor.data.map tobytes }
        .ok ({ s with tables := s.tables ++ [added], dropInits := table :: s.dropInits } : QpState)
  | shape => .error ⟨s!"QP 表 {table} 形状 {shapeText shape} 不是 [N, C, 1, 1]"⟩

/-- One reader of a QP input. -/
def qpGather (tobytes : Val K → UInt16) (g : Graph K) (qi : String) (s : QpState) (user : NodeProto K × Nat) :
    Except OnnxRewriteError QpState :=
  let (node, i) := user
  if node.opType ≠ "Gather" ∨ node.input.length < 2 ∨ node.input[1]? ≠ some qi then
    .error ⟨s!"q_index 输入 {qi} 被非 Gather 节点消费: {node.opType} {node.name}"⟩
  else
    let table := node.input.headD ""
    match g.init table with
    | none => .error ⟨s!"Gather 数据源 {table} 不是 initializer"⟩
    | some arr =>
      if (g.consumers table).any (·.1.opType ≠ "Gather") then .error ⟨s!"QP 表 {table} 被非 Gather 节点消费"⟩
      else
        match addTable tobytes s table arr with
        | .error e => .error e
        | .ok s =>
          let moved := node.output.map (·, rowName table)
          .ok ({ s with dropNodes := i :: s.dropNodes, rewires := moved ++ s.rewires } : QpState)

/-- The readers of one QP input. -/
def qpInput (tobytes : Val K → UInt16) (g : Graph K) (s : QpState) (qi : String) : Except OnnxRewriteError QpState :=
  if g.consumers qi = [] then .error ⟨s!"q_index 输入 {qi} 无消费者（已是动态图？）"⟩
  else (g.consumers qi).foldlM (qpGather tobytes g qi) s

/-- `rewires.get(name, name)`. -/
def rewired (rewires : List (String × String)) (name : String) : String :=
  ((rewires.find? (·.1 = name)).map (·.2)).getD name

/-- The input that a row comes through. -/
def QpTable.valueInfo (t : QpTable) : ValueInfo where
  name := t.name
  elemType := some .float16
  dims := [some 1, some t.cols, some 1, some 1]

/-- A node that reads other names. -/
def NodeProto.rewire (f : String → String) (n : NodeProto K) : NodeProto K := { n with input := n.input.map f }

/-- The graph without its gathers. -/
def QpState.rewrite (s : QpState) (g : Graph K) (qInputs : List String) : Graph K :=
  { g with
    node := (g.node.zipIdx.filter fun u => u.2 ∉ s.dropNodes).map fun u => u.1.rewire (rewired s.rewires)
    input := (g.input ++ s.tables.map QpTable.valueInfo).filter fun vi => vi.name ∈ g.initNames ∨ vi.name ∉ qInputs
    initializer := g.initializer.filter fun init => init.name ∉ s.dropInits }

def makeQpDynamic (tobytes : Val K → UInt16) (names : List String) (g : Graph K) :
    Except OnnxRewriteError (Graph K × List QpTable) :=
  let qInputs := g.qInputs names
  if qInputs = [] then .error ⟨"未找到 q_index 图输入，无法做 qp-dynamic 改写"⟩
  else
    match qInputs.foldlM (qpInput tobytes g) {} with
    | .error e => .error e
    | .ok s => .ok (s.rewrite g qInputs, s.tables)

/-! ## What is collected -/

/-- A loop that ends well keeps what each of its turns keeps. -/
theorem foldlM_ok {σ α ε : Type} {f : σ → α → Except ε σ} {P : List α → σ → Prop} {l : List α} {s s' : σ}
    (done : l.foldlM f s = .ok s') (start : P [] s)
    (step : ∀ before a s s', a ∈ l → P before s → f s a = .ok s' → P (before ++ [a]) s') : P l s' := by
  suffices go : ∀ (before rest : List α) (s : σ), before ++ rest = l → P before s → rest.foldlM f s = .ok s' → P l s' from
    go [] l s rfl start done
  intro before rest
  induction rest generalizing before with
  | nil =>
    intro s whole kept done
    cases done
    rw [← whole, List.append_nil]
    exact kept
  | cons a rest ih =>
    intro s whole kept done
    rw [List.foldlM_cons] at done
    cases turn : f s a with
    | error e =>
      rw [turn] at done
      cases done
    | ok s₁ =>
      rw [turn] at done
      have listed : a ∈ l := by
        rw [← whole]
        exact List.mem_append_right _ List.mem_cons_self
      refine ih (before ++ [a]) s₁ ?_ (step before a s s₁ listed kept turn) done
      rw [List.append_assoc]
      exact whole

section Collect

variable {tobytes : Val K → UInt16} {g : Graph K} {names : List String} {s s' : QpState}

/-- A table as it stands in the graph. -/
structure QpTable.Of (tobytes : Val K → UInt16) (g : Graph K) (t : QpTable) : Prop where
  name : t.name = rowName t.source
  array : ∃ arr, g.init t.source = some arr ∧ arr.dtype = .float16 ∧ arr.tensor.shape = [t.rows, t.cols, 1, 1] ∧
    t.dataFp16 = arr.tensor.data.map tobytes

/-- What the loop has collected of the readers `users`. -/
structure Collected (tobytes : Val K → UInt16) (g : Graph K) (qInputs : List String)
    (users : List (NodeProto K × Nat)) (s : QpState) : Prop where
  gather : ∀ u ∈ users, u.1.opType = "Gather" ∧
    ∃ t ∈ s.tables, ∃ index rest, u.1.input = t.source :: index :: rest ∧ index ∈ qInputs
  tables : ∀ t ∈ s.tables, t.Of tobytes g ∧ t.source ∈ s.dropInits
  names : (s.tables.map (·.name)).Nodup
  dropNodes : ∀ i, i ∈ s.dropNodes ↔ ∃ u ∈ users, u.2 = i
  dropInits : ∀ x, x ∈ s.dropInits ↔ ∃ u ∈ users, u.1.input.headD "" = x
  rewires : ∀ p, p ∈ s.rewires ↔ ∃ u ∈ users, p.1 ∈ u.1.output ∧ p.2 = rowName (u.1.input.headD "")

/-- A table is found by its name. -/
theorem find?_name {tables : List QpTable} (names : (tables.map (·.name)).Nodup) {t : QpTable} (listed : t ∈ tables) :
    tables.find? (·.name = t.name) = some t := by
  induction tables with
  | nil => cases listed
  | cons t' tables ih =>
    obtain ⟨first, rest⟩ := List.nodup_cons.mp names
    rcases List.mem_cons.mp listed with rfl | later
    · exact List.find?_cons_of_pos (decide_eq_true rfl)
    · rw [List.find?_cons_of_neg, ih rest later]
      intro same
      have same : t'.name = t.name := by simpa using same
      exact first (List.mem_map.mpr ⟨t, later, same.symm⟩)

theorem addTable_spec {table : String} {arr : NdArray K} (added : addTable tobytes s table arr = .ok s')
    (known : ∀ t ∈ s.tables, t.Of tobytes g ∧ t.source ∈ s.dropInits) (names : (s.tables.map (·.name)).Nodup)
    (init : g.init table = some arr) :
    (∃ t ∈ s'.tables, t.source = table) ∧ (∀ t ∈ s.tables, t ∈ s'.tables) ∧
      (∀ t ∈ s'.tables, t.Of tobytes g ∧ t.source ∈ s'.dropInits) ∧ (s'.tables.map (·.name)).Nodup ∧
      (∀ x, x ∈ s'.dropInits ↔ x ∈ s.dropInits ∨ x = table) ∧ s'.dropNodes = s.dropNodes ∧ s'.rewires = s.rewires := by
  unfold addTable at added
  split at added
  · rename_i rows cols shape
    cases found : s.tables.find? (·.name = rowName table) with
    | some t =>
      simp only [found] at added
      split at added
      · cases added
      · rename_i same
        cases added
        have source : t.source = table := not_not.mp same
        have listed := List.mem_of_find?_eq_some found
        refine ⟨⟨t, listed, source⟩, fun t listed => listed, known, names, fun x => ?_, rfl, rfl⟩
        constructor
        · exact .inl
        · rintro (old | rfl)
          · exact old
          · rw [← source]
            exact (known t listed).2
    | none =>
      simp only [found] at added
      split at added
      · cases added
      · rename_i half
        cases added
        have fresh := List.find?_eq_none.mp found
        refine ⟨⟨_, List.mem_append_right _ List.mem_cons_self, rfl⟩, fun t listed => List.mem_append_left _ listed, ?_, ?_,
          fun x => ?_, rfl, rfl⟩
        · intro t listed
          rcases List.mem_append.mp listed with old | new
          · exact ⟨(known t old).1, List.mem_cons_of_mem _ (known t old).2⟩
          · cases List.mem_singleton.mp new
            exact ⟨⟨rfl, arr, init, not_not.mp half, shape, rfl⟩, List.mem_cons_self⟩
        · rw [List.map_append, List.map_singleton]
          refine List.nodup_append.mpr ⟨names, List.pairwise_singleton _ _, ?_⟩
          intro x old y new same
          obtain ⟨t, listed, rfl⟩ := List.mem_map.mp old
          refine fresh t listed (decide_eq_true ?_)
          rw [same, List.mem_singleton.mp new]
        · rw [List.mem_cons, or_comm]
  · cases added

theorem qpGather_spec {qi : String} {qInputs : List String} {users : List (NodeProto K × Nat)} {user : NodeProto K × Nat}
    (collected : Collected tobytes g qInputs users s) (input : qi ∈ qInputs)
    (turn : qpGather tobytes g qi s user = .ok s') : Collected tobytes g qInputs (users ++ [user]) s' := by
  obtain ⟨node, i⟩ := user
  unfold qpGather at turn
  simp only at turn
  split at turn
  · cases turn
  · rename_i shape
    simp only [not_or, not_not] at shape
    obtain ⟨gather, long, index⟩ := shape
    obtain ⟨table, second, rest, inputs⟩ : ∃ table second rest, node.input = table :: second :: rest := by
      match node.input, long with
      | table :: second :: rest, _ => exact ⟨table, second, rest, rfl⟩
      | [_], long => exact absurd Nat.one_lt_two long
      | [], long => exact absurd Nat.zero_lt_two long
    have head : node.input.headD "" = table := by
      rw [inputs]
      rfl
    rw [inputs] at index
    obtain rfl : second = qi := Option.some.inj index
    rw [head] at turn
    cases init : g.init table with
    | none =>
      rw [init] at turn
      cases turn
    | some arr =>
      simp only [init] at turn
      split at turn
      · cases turn
      · cases added : addTable tobytes s table arr with
        | error e =>
          rw [added] at turn
          cases turn
        | ok s₁ =>
          rw [added] at turn
          cases turn
          obtain ⟨⟨t, listed, source⟩, old, tables, names, inits, nodes, rewires⟩ :=
            addTable_spec added collected.tables collected.names init
          constructor
          · intro u listed'
            rcases List.mem_append.mp listed' with before | new
            · obtain ⟨op, t, known, rest⟩ := collected.gather u before
              exact ⟨op, t, old t known, rest⟩
            · cases List.mem_singleton.mp new
              refine ⟨gather, t, listed, second, rest, ?_, input⟩
              rw [source]
              exact inputs
          · exact tables
          · exact names
          · intro j
            simp only [List.mem_cons, nodes, collected.dropNodes, List.mem_append, List.not_mem_nil, or_false, or_and_right,
              exists_or, exists_eq_left]
            rw [or_comm, eq_comm]
          · intro x
            simp only [inits, collected.dropInits, List.mem_append, List.mem_singleton, or_and_right, exists_or,
              exists_eq_left, head]
            rw [eq_comm]
          · intro p
            simp only [List.mem_append, rewires, collected.rewires, List.mem_map, List.mem_singleton, or_and_right,
              exists_or, exists_eq_left, head]
            rw [or_comm]
            refine or_congr_right ?_
            constructor
            · rintro ⟨x, output, rfl⟩
              exact ⟨output, rfl⟩
            · rintro ⟨output, row⟩
              exact ⟨p.1, output, Prod.ext rfl row.symm⟩

theorem makeQpDynamic_spec {g' : Graph K} {tables : List QpTable} (made : makeQpDynamic tobytes names g = .ok (g', tables)) :
    ∃ s : QpState, g' = s.rewrite g (g.qInputs names) ∧ tables = s.tables ∧
      Collected tobytes g (g.qInputs names) ((g.qInputs names).flatMap g.consumers) s := by
  simp only [makeQpDynamic] at made
  split at made
  · cases made
  · cases loop : (g.qInputs names).foldlM (qpInput tobytes g) {} with
    | error e =>
      rw [loop] at made
      cases made
    | ok s =>
      rw [loop] at made
      cases made
      refine ⟨s, rfl, rfl, ?_⟩
      refine foldlM_ok (P := fun before => Collected tobytes g (g.qInputs names) (before.flatMap g.consumers)) loop ?_ ?_
      · constructor
        · exact fun u listed => absurd listed List.not_mem_nil
        · exact fun t listed => absurd listed List.not_mem_nil
        · exact List.nodup_nil
        · intro i
          simp
        · intro x
          simp
        · intro p
          simp
      · intro before qi s₁ s₂ input collected turn
        rw [qpInput] at turn
        split at turn
        · cases turn
        · rw [List.flatMap_append, List.flatMap_singleton]
          refine foldlM_ok (P := fun b => Collected tobytes g (g.qInputs names) (before.flatMap g.consumers ++ b)) turn ?_ ?_
          · rw [List.append_nil]
            exact collected
          · intro b user s₃ s₄ _ collected turn
            rw [← List.append_assoc]
            exact qpGather_spec collected input turn

/-- The nodes that are taken out. -/
def Graph.gathers (g : Graph K) (names : List String) (n : NodeProto K) : Bool := n.input.any (· ∈ g.qInputs names)

theorem gathers_iff {n : NodeProto K} : g.gathers names n = true ↔ ∃ qi ∈ g.qInputs names, qi ∈ n.input := by
  simp only [Graph.gathers, List.any_eq_true, decide_eq_true_eq]
  constructor
  · rintro ⟨qi, reads, input⟩
    exact ⟨qi, input, reads⟩
  · rintro ⟨qi, input, reads⟩
    exact ⟨qi, reads, input⟩

theorem mem_users {u : NodeProto K × Nat} :
    u ∈ (g.qInputs names).flatMap g.consumers ↔ u ∈ g.node.zipIdx ∧ g.gathers names u.1 = true := by
  simp only [List.mem_flatMap, Graph.consumers, List.mem_map, List.mem_filter, decide_eq_true_eq, gathers_iff]
  constructor
  · rintro ⟨qi, input, ⟨n, i⟩, node, name, ⟨reads, rfl⟩, rfl⟩
    exact ⟨node, name, input, reads⟩
  · rintro ⟨node, qi, input, reads⟩
    exact ⟨qi, input, u, node, qi, ⟨reads, rfl⟩, rfl⟩

/-- Where places and elements say the same, elements are enough. -/
theorem filter_zipIdx {α β : Type} {l : List α} {p : α × Nat → Bool} {q : α → Bool} (f : α → β)
    (same : ∀ u ∈ l.zipIdx, p u = q u.1) : (l.zipIdx.filter p).map (fun u => f u.1) = (l.filter q).map f := by
  rw [List.filter_congr same]
  have places : l.zipIdx.map Prod.fst = l := List.zipIdx_map_fst 0 l
  calc (l.zipIdx.filter fun u => q u.1).map (fun u => f u.1)
      = ((l.zipIdx.filter (q ∘ Prod.fst)).map Prod.fst).map f := (List.map_map ..).symm
    _ = ((l.zipIdx.map Prod.fst).filter q).map f := by rw [List.filter_map]
    _ = (l.filter q).map f := by rw [places]

/-- What is left of the nodes. -/
theorem rewrite_node {qInputs : List String}
    (collected : Collected tobytes g qInputs ((g.qInputs names).flatMap g.consumers) s) :
    (s.rewrite g (g.qInputs names)).node =
      (g.node.filter fun n => !g.gathers names n).map (NodeProto.rewire (rewired s.rewires)) := by
  refine filter_zipIdx _ fun u listed => ?_
  have dropped : u.2 ∈ s.dropNodes ↔ g.gathers names u.1 = true := by
    rw [collected.dropNodes]
    constructor
    · rintro ⟨v, user, same⟩
      obtain ⟨place, gathers⟩ := mem_users.mp user
      have one := List.mem_zipIdx_iff_getElem?.mp listed
      have two := List.mem_zipIdx_iff_getElem?.mp place
      rw [same, one] at two
      rw [Option.some.inj two]
      exact gathers
    · intro gathers
      exact ⟨u, mem_users.mpr ⟨listed, gathers⟩, rfl⟩
  cases gathers : g.gathers names u.1 with
  | true => simpa using dropped.mpr gathers
  | false =>
    have kept : u.2 ∉ s.dropNodes := fun drop => by
      rw [dropped.mp drop] at gathers
      cases gathers
    simpa using kept

/-! ## What is left of the names -/

/-- The tables that are taken out. -/
def Graph.qTables (g : Graph K) (names : List String) : List String :=
  (g.node.filter (g.gathers names)).map fun n => n.input.headD ""

/-- What the nodes give that are taken out. -/
def Graph.qOutputs (g : Graph K) (names : List String) : List String :=
  (g.node.filter (g.gathers names)).flatMap (·.output)

/-- The names that lose their values. A table that is an input as well stays one. -/
def Graph.Lost (g : Graph K) (names : List String) (x : String) : Prop :=
  x ∈ g.qInputs names ∨ x ∈ g.qTables names ∧ x ∉ g.inputNames ∨ x ∈ g.qOutputs names

instance (g : Graph K) (names : List String) (x : String) : Decidable (g.Lost names x) :=
  inferInstanceAs (Decidable (_ ∨ _))

/-- The rows have names of their own. -/
def Graph.FreshRows (g : Graph K) (names : List String) : Prop :=
  ∀ table ∈ g.qTables names, rowName table ∉ g.defined ∧ rowName table ≠ ""

/-- What is taken out is read by nothing that is left, but for what the gathers give. -/
structure Graph.Detached (g : Graph K) (names : List String) : Prop where
  readers : ∀ n ∈ g.node, g.gathers names n = false → ∀ x ∈ n.input, x ∈ g.qTables names → x ∈ g.inputNames
  captures : ∀ n ∈ g.node, ∀ x ∈ n.captures, ¬g.Lost names x
  outputs : ∀ x ∈ g.outputNames, ¬g.Lost names x

theorem mem_qOutputs {x : String} : x ∈ g.qOutputs names ↔ ∃ n ∈ g.node, g.gathers names n = true ∧ x ∈ n.output := by
  simp only [Graph.qOutputs, List.mem_flatMap, List.mem_filter, and_assoc]

theorem mem_qTables {x : String} :
    x ∈ g.qTables names ↔ ∃ n ∈ g.node, g.gathers names n = true ∧ n.input.headD "" = x := by
  simp only [Graph.qTables, List.mem_map, List.mem_filter, and_assoc]

theorem mem_qInputs {x : String} (input : x ∈ g.qInputs names) : x ∈ g.inputNames ∧ x ∉ g.initNames := by
  have both := List.mem_filter.mp input
  exact ⟨both.1, (of_decide_eq_true both.2).1⟩

/-- What the tool knows of a gather, and of the names around it. -/
structure Graph.Gathered (g : Graph K) (names : List String) (s : QpState) (n : NodeProto K) (t : QpTable) : Prop where
  table : t ∈ s.tables
  opType : n.opType = "Gather"
  input : ∃ index rest, n.input = t.source :: index :: rest ∧ index ∈ g.qInputs names
  output : ∃ y, y ≠ "" ∧ n.output = [y] ∧ rewired s.rewires y = t.name

section Names

variable (collected : Collected tobytes g (g.qInputs names) ((g.qInputs names).flatMap g.consumers) s)
include collected

theorem mem_dropInits {x : String} : x ∈ s.dropInits ↔ x ∈ g.qTables names := by
  rw [collected.dropInits, mem_qTables]
  constructor
  · rintro ⟨u, user, table⟩
    obtain ⟨place, gathers⟩ := mem_users.mp user
    exact ⟨u.1, (List.mem_zipIdx' place).2 ▸ List.getElem_mem _, gathers, table⟩
  · rintro ⟨n, node, gathers, table⟩
    obtain ⟨i, place⟩ := List.mem_iff_getElem?.mp node
    exact ⟨(n, i), mem_users.mpr ⟨List.mem_zipIdx_iff_getElem?.mpr place, gathers⟩, table⟩

/-- A name that no gather gives stays. -/
theorem rewired_other {x : String} (other : x ∉ g.qOutputs names) : rewired s.rewires x = x := by
  have none : s.rewires.find? (·.1 = x) = none := by
    refine List.find?_eq_none.mpr fun p listed same => other ?_
    obtain ⟨u, user, gives, -⟩ := (collected.rewires p).mp listed
    obtain ⟨place, gathers⟩ := mem_users.mp user
    rw [of_decide_eq_true same] at gives
    exact mem_qOutputs.mpr ⟨u.1, (List.mem_zipIdx' place).2 ▸ List.getElem_mem _, gathers, gives⟩
  rw [rewired, none]
  rfl

theorem gathered (valid : g.Valid) {n : NodeProto K} (node : n ∈ g.node) (gathers : g.gathers names n = true) :
    ∃ t, g.Gathered names s n t := by
  obtain ⟨i, place⟩ := List.mem_iff_getElem?.mp node
  have user : (n, i) ∈ (g.qInputs names).flatMap g.consumers :=
    mem_users.mpr ⟨List.mem_zipIdx_iff_getElem?.mpr place, gathers⟩
  obtain ⟨op, t, table, index, rest, input, qi⟩ := collected.gather _ user
  obtain ⟨-, y, named, output⟩ := valid.plain n node (by rw [op]; decide)
  refine ⟨t, table, op, ⟨index, rest, input, qi⟩, y, named, output, ?_⟩
  have row : rowName (n.input.headD "") = t.name := by
    rw [(collected.tables t table).1.name, input]
    rfl
  have moved : (y, rowName (n.input.headD "")) ∈ s.rewires :=
    (collected.rewires _).mpr ⟨(n, i), user, by rw [output]; exact List.mem_singleton_self y, rfl⟩
  obtain ⟨p, found⟩ := Option.isSome_iff_exists.mp (List.find?_isSome.mpr ⟨_, moved, decide_eq_true rfl⟩ :
    (s.rewires.find? (·.1 = y)).isSome)
  obtain ⟨u, user', gives, target⟩ := (collected.rewires p).mp (List.mem_of_find?_eq_some found)
  obtain ⟨place', -⟩ := mem_users.mp user'
  have same : p.1 = y := by simpa using List.find?_some found
  rw [same] at gives
  have one := valid.writer ((List.mem_zipIdx' place').2 ▸ List.getElem_mem _) node named gives
    (by rw [output]; exact List.mem_singleton_self y)
  rw [rewired, found, Option.map_some, Option.getD_some, target, one, row]

omit collected in
theorem mem_inputs {x : String} : x ∈ (s.rewrite g (g.qInputs names)).inputNames ↔
    (x ∈ g.inputNames ∨ ∃ t ∈ s.tables, t.name = x) ∧ (x ∈ g.initNames ∨ x ∉ g.qInputs names) := by
  simp only [QpState.rewrite, Graph.inputNames, List.mem_map, List.mem_filter, List.mem_append, decide_eq_true_eq]
  constructor
  · rintro ⟨vi, ⟨old | ⟨t, table, rfl⟩, kept⟩, rfl⟩
    · exact ⟨.inl ⟨vi, old, rfl⟩, kept⟩
    · exact ⟨.inr ⟨t, table, rfl⟩, kept⟩
  · rintro ⟨⟨vi, old, rfl⟩ | ⟨t, table, rfl⟩, kept⟩
    · exact ⟨vi, ⟨.inl old, kept⟩, rfl⟩
    · exact ⟨t.valueInfo, ⟨.inr ⟨t, table, rfl⟩, kept⟩, rfl⟩

theorem mem_inits {x : String} :
    x ∈ (s.rewrite g (g.qInputs names)).initNames ↔ x ∈ g.initNames ∧ x ∉ g.qTables names := by
  simp only [QpState.rewrite, Graph.initNames, List.mem_map, List.mem_filter, decide_eq_true_eq,
    mem_dropInits collected]
  constructor
  · rintro ⟨init, ⟨old, kept⟩, rfl⟩
    exact ⟨⟨init, old, rfl⟩, kept⟩
  · rintro ⟨⟨init, old, rfl⟩, kept⟩
    exact ⟨init, ⟨old, kept⟩, rfl⟩

theorem mem_outputs {x : String} : x ∈ (s.rewrite g (g.qInputs names)).node.flatMap (·.output) ↔
    ∃ n ∈ g.node, g.gathers names n = false ∧ x ∈ n.output := by
  rw [rewrite_node collected]
  simp only [List.mem_flatMap, List.mem_map, List.mem_filter, Bool.not_eq_true']
  constructor
  · rintro ⟨n', ⟨n, ⟨node, kept⟩, rfl⟩, gives⟩
    exact ⟨n, node, kept, gives⟩
  · rintro ⟨n, node, kept, gives⟩
    exact ⟨_, ⟨n, ⟨node, kept⟩, rfl⟩, gives⟩

/-- The row of a table comes under a name of its own. -/
theorem row_fresh (fresh : g.FreshRows names) {t : QpTable} (table : t ∈ s.tables) : t.name ∉ g.defined ∧ t.name ≠ "" := by
  obtain ⟨of, dropped⟩ := collected.tables t table
  rw [of.name]
  exact fresh t.source ((mem_dropInits collected).mp dropped)

theorem qTables_init (valid : g.Valid) {x : String} (table : x ∈ g.qTables names) : x ∈ g.initNames := by
  obtain ⟨n, node, gathers, head⟩ := mem_qTables.mp table
  obtain ⟨t, known⟩ := gathered collected valid node gathers
  obtain ⟨index, rest, input, -⟩ := known.input
  obtain ⟨arr, init, -⟩ := (collected.tables t known.table).1.array
  rw [input] at head
  obtain rfl : t.source = x := head
  exact mem_initNames init

/-- What the gathers give is neither an input nor an initializer. -/
theorem qOutputs_apart (valid : g.Valid) {x : String} (gives : x ∈ g.qOutputs names) :
    x ≠ "" ∧ x ∉ g.inputNames ∧ x ∉ g.initNames := by
  obtain ⟨n, node, gathers, output⟩ := mem_qOutputs.mp gives
  obtain ⟨t, known⟩ := gathered collected valid node gathers
  obtain ⟨y, named, one, -⟩ := known.output
  have same : x = y := by
    rw [one] at output
    exact List.mem_singleton.mp output
  rw [← same] at named
  exact ⟨named, valid.apart n node x output named⟩

/-- What a node that is left gives is not lost. -/
theorem kept_outputs (valid : g.Valid) {n : NodeProto K} (node : n ∈ g.node) (kept : g.gathers names n = false)
    {x : String} (gives : x ∈ n.output) : ¬g.Lost names x := by
  rintro (input | ⟨table, -⟩ | gathered)
  · obtain ⟨listed, -⟩ := mem_qInputs input
    by_cases named : x = ""
    · rw [named] at listed
      exact valid.named.1 listed
    · exact (valid.apart n node x gives named).1 listed
  · have listed := qTables_init collected valid table
    by_cases named : x = ""
    · rw [named] at listed
      exact valid.named.2.1 listed
    · exact (valid.apart n node x gives named).2 listed
  · obtain ⟨named, -⟩ := qOutputs_apart collected valid gathered
    obtain ⟨n', node', gathers, gives'⟩ := mem_qOutputs.mp gathered
    rw [valid.writer node node' named gives gives', gathers] at kept
    cases kept

/-- What has a value in the rewritten graph. -/
theorem mem_defined (valid : g.Valid) {x : String} :
    x ∈ (s.rewrite g (g.qInputs names)).defined ↔ x ∈ g.defined ∧ ¬g.Lost names x ∨
      ∃ t ∈ s.tables, t.name = x ∧ (x ∈ g.initNames ∨ x ∉ g.qInputs names) := by
  rw [Graph.defined, Graph.defined, List.mem_append, List.mem_append, mem_inputs, mem_inits collected,
    mem_outputs collected, List.mem_append, List.mem_append]
  constructor
  · rintro ((⟨input | ⟨t, table, name⟩, kept⟩ | ⟨init, kept⟩) | ⟨n, node, kept, gives⟩)
    · refine .inl ⟨.inl (.inl input), ?_⟩
      rintro (qi | ⟨-, other⟩ | gathered)
      · exact kept.elim (mem_qInputs qi).2 fun other => other qi
      · exact other input
      · exact (qOutputs_apart collected valid gathered).2.1 input
    · exact .inr ⟨t, table, name, kept⟩
    · refine .inl ⟨.inl (.inr init), ?_⟩
      rintro (qi | ⟨table, -⟩ | gathered)
      · exact (mem_qInputs qi).2 init
      · exact kept table
      · exact (qOutputs_apart collected valid gathered).2.2 init
    · exact .inl ⟨.inr (List.mem_flatMap.mpr ⟨n, node, gives⟩), kept_outputs collected valid node kept gives⟩
  · rintro (⟨old, left⟩ | ⟨t, table, name, kept⟩)
    · simp only [Graph.Lost, not_or, not_and, not_not] at left
      obtain ⟨notInput, notTable, notOutput⟩ := left
      rcases old with (input | init) | gives
      · exact .inl (.inl ⟨.inl input, .inr notInput⟩)
      · by_cases table : x ∈ g.qTables names
        · exact .inl (.inl ⟨.inl (notTable table), .inl init⟩)
        · exact .inl (.inr ⟨init, table⟩)
      · obtain ⟨n, node, gives⟩ := List.mem_flatMap.mp gives
        refine .inr ⟨n, node, ?_, gives⟩
        cases gathers : g.gathers names n with
        | false => rfl
        | true => exact absurd (mem_qOutputs.mpr ⟨n, node, gathers, gives⟩) notOutput
    · exact .inl (.inl ⟨.inr ⟨t, table, name⟩, kept⟩)

/-- **The rewritten graph is closed exactly where** what it loses was read by the gathers alone. -/
theorem rewrite_closed_iff (valid : g.Valid) (fresh : g.FreshRows names) :
    (s.rewrite g (g.qInputs names)).Closed ↔ g.Detached names := by
  have old {x : String} (known : x ∈ g.defined) : x ∈ (s.rewrite g (g.qInputs names)).defined ↔ ¬g.Lost names x := by
    rw [mem_defined collected valid]
    constructor
    · rintro (⟨-, left⟩ | ⟨t, table, name, -⟩)
      · exact left
      · rw [← name] at known
        exact absurd known (row_fresh collected fresh table).1
    · exact fun left => .inl ⟨known, left⟩
  have outputs : (s.rewrite g (g.qInputs names)).outputNames = g.outputNames := rfl
  constructor
  · rintro ⟨reads, lists⟩
    rw [rewrite_node collected] at reads
    refine ⟨fun n node kept x input table => ?_, fun n node x captured => ?_, fun x output => ?_⟩
    · have init := qTables_init collected valid table
      have named : x ≠ "" := by
        rintro rfl
        exact valid.named.2.1 init
      have other : x ∉ g.qOutputs names := fun gathered => (qOutputs_apart collected valid gathered).2.2 init
      have read := reads _ (List.mem_map_of_mem (List.mem_filter.mpr ⟨node, by simpa using kept⟩)) x
        (List.mem_append_left _ (List.mem_map.mpr ⟨x, input, rewired_other collected other⟩))
      have left := (old (List.mem_append_left _ (List.mem_append_right _ init))).mp (read.resolve_left named)
      by_contra absent
      exact left (.inr (.inl ⟨table, absent⟩))
    · have known := (valid.closed.1 n node x (List.mem_append_right _ captured)).resolve_left fun empty =>
        valid.captures n node (empty ▸ captured)
      cases gathers : g.gathers names n with
      | true =>
        obtain ⟨t, of⟩ := gathered collected valid node gathers
        have none := (valid.plain n node (by rw [of.opType]; decide)).1
        rw [none] at captured
        cases captured
      | false =>
        have read := reads _ (List.mem_map_of_mem (List.mem_filter.mpr ⟨node, by simpa using gathers⟩)) x
          (List.mem_append_right _ captured)
        exact (old known).mp (read.resolve_left fun empty => valid.captures n node (empty ▸ captured))
    · exact (old (valid.closed.2 x output)).mp (lists x output)
  · intro detached
    constructor
    · intro n' node' x reads
      rw [rewrite_node collected] at node'
      obtain ⟨n, kept, rfl⟩ := List.mem_map.mp node'
      obtain ⟨node, kept⟩ := List.mem_filter.mp kept
      have kept : g.gathers names n = false := by simpa using kept
      rcases List.mem_append.mp reads with input | captured
      · obtain ⟨y, listed, rfl⟩ := List.mem_map.mp input
        by_cases gathered' : y ∈ g.qOutputs names
        · obtain ⟨n', node', gathers, gives⟩ := mem_qOutputs.mp gathered'
          obtain ⟨t, of⟩ := gathered collected valid node' gathers
          obtain ⟨z, -, one, row⟩ := of.output
          have same : y = z := by
            rw [one] at gives
            exact List.mem_singleton.mp gives
          rw [same, row]
          right
          refine (mem_defined collected valid).mpr (.inr ⟨t, of.table, rfl, .inr fun qi => ?_⟩)
          refine (row_fresh collected fresh of.table).1 ?_
          exact List.mem_append_left _ (List.mem_append_left _ (mem_qInputs qi).1)
        · rw [rewired_other collected gathered']
          by_cases empty : y = ""
          · exact .inl empty
          · have known := (valid.closed.1 n node y (List.mem_append_left _ listed)).resolve_left empty
            refine .inr ((old known).mpr ?_)
            rintro (qi | ⟨table, absent⟩ | gathered)
            · rw [gathers_iff.mpr ⟨y, qi, listed⟩] at kept
              cases kept
            · exact absent (detached.readers n node kept y listed table)
            · exact gathered' gathered
      · have named : x ≠ "" := fun empty => valid.captures n node (empty ▸ captured)
        have known := (valid.closed.1 n node x (List.mem_append_right _ captured)).resolve_left named
        exact .inr ((old known).mpr (detached.captures n node x captured))
    · intro x output
      exact (old (valid.closed.2 x output)).mpr (detached.outputs x output)

end Names

end Collect

end Rkvc.Onnx
