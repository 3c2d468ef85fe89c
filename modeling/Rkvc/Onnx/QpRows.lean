import Mathlib.Data.Rat.Floor
import Rkvc.Mlvc.Sample
import Rkvc.Onnx.QpDynamic

/-!
# Rows for gathers

The graph that gathers a row by its QP and the one that is given the row compute the same,
where the gathers are along the first axis (`qp_dynamic_spec`).
-/

namespace Rkvc.Onnx
set_option autoImplicit false
open Lib

variable {K : Type}

/-- A table as the runtime loads it. -/
def QpTable.host (t : QpTable) : Mlvc.QpTable where
  name := Mlvc.nameOf t.name
  rows := t.rows
  cols := t.cols
  data := t.dataFp16

section Table

variable {tobytes : Val K → UInt16} {g : Graph K} {t : QpTable} {arr : NdArray K} {q : Nat}

/-- The row of a table, element by element. -/
theorem row_get (of : t.Of tobytes g) (init : g.init t.source = some arr) {c : Nat} (below : q < t.rows)
    (column : c < t.cols) : arr.dtype = .float16 ∧ arr.tensor.get [q, c, 0, 0] ∈ arr.tensor.data ∧
      (Mlvc.qptabRow t.host q)[c]? = some (tobytes (arr.tensor.get [q, c, 0, 0])) := by
  obtain ⟨arr', init', half, shape, data⟩ := of.array
  cases init.symm.trans init'
  have position : flat arr.tensor.shape [q, c, 0, 0] = q * t.cols + c := by
    rw [shape]
    simp [flat]
  have inside : Inside arr.tensor.shape [q, c, 0, 0] := by
    rw [shape]
    exact ⟨below, column, Nat.one_pos, Nat.one_pos, trivial⟩
  have read := Tensor.get_eq inside
  rw [position] at read
  have valid : t.host.Valid := by
    refine ⟨Nat.zero_lt_of_lt below, Nat.zero_lt_of_lt column, ?_⟩
    simp [QpTable.host, data, arr.tensor.size, shape]
  refine ⟨half, List.mem_of_getElem? read, ?_⟩
  rw [Mlvc.qptabRow_of_lt valid below]
  show ((t.dataFp16.drop (q * t.cols)).take t.cols)[c]? = _
  rw [List.getElem?_take_of_lt column, List.getElem?_drop, data, List.getElem?_map, read]
  rfl

end Table

variable [Field K]

/-- The number of a half. -/
def halfVal (h : UInt16) : Val K :=
  let negative := h &&& 0x8000 ≠ 0
  if Mlvc.Pixel.fp16Finite h then
    let magnitude : K := Mlvc.Pixel.halfMagnitude h / (2 ^ 24 : Nat)
    .fin (if negative then -magnitude else magnitude)
  else if h &&& 0x3ff ≠ 0 then .nan
  else if negative then .negInf
  else .posInf

/-- What the runtime feeds for a QP. -/
def QpTable.rowArray (t : QpTable) (q : Nat) : NdArray K where
  dtype := .float16
  tensor := Tensor.ofFn [1, t.cols, 1, 1] fun index => halfVal ((Mlvc.qptabRow t.host q).getD (index.getD 1 0) 0)

def feedRows (tables : List QpTable) (q : Nat) (feed : Flow.Env String (NdArray K)) : Flow.Env String (NdArray K) :=
  fun name => ((tables.find? (·.name = name)).map (·.rowArray q)).or (feed name)

/-- `[q]`. -/
def IsIndex (q : Nat) (a : NdArray K) : Prop := a.tensor = ⟨[1], [.fin (q : K)], rfl⟩

/-- `tobytes` of an array of halves. -/
def Lossless (tobytes : Val K → UInt16) (g : Graph K) : Prop :=
  ∀ name arr, g.init name = some arr → arr.dtype = .float16 → ∀ v ∈ arr.tensor.data, halfVal (tobytes v) = v

section Row

variable {tobytes : Val K → UInt16} {g : Graph K} {t : QpTable} {arr : NdArray K} {q : Nat}

/-- A gather along the first axis of a table gives the row that the runtime feeds. -/
theorem gather_row (of : t.Of tobytes g) (init : g.init t.source = some arr) (lossless : Lossless tobytes g)
    (below : q < t.rows) :
    gather 0 arr.tensor ⟨[1], [(q : Int)], rfl⟩ = some (t.rowArray q : NdArray K).tensor ∧ arr.dtype = .float16 := by
  obtain ⟨arr', init', half, shape, data⟩ := of.array
  cases init.symm.trans init'
  refine ⟨?_, half⟩
  have inside : 0 < arr.tensor.shape.length ∧
      ∀ i ∈ [(q : Int)], -((arr.tensor.shape.getD 0 0 : Nat) : Int) ≤ i ∧ i < (arr.tensor.shape.getD 0 0 : Nat) := by
    rw [shape]
    refine ⟨Nat.zero_lt_succ _, fun i listed => ?_⟩
    rw [List.mem_singleton.mp listed]
    simp only [List.getD_cons_zero]
    omega
  rw [gather, if_pos inside]
  refine congrArg some (Tensor.ext_get ?_ ?_)
  · rw [Tensor.shape_ofFn, shape]
    rfl
  · intro index within
    rw [Tensor.shape_ofFn] at within
    refine (Tensor.get_ofFn within).trans ?_
    rw [shape] at within
    have within' : Inside [1, t.cols, 1, 1] index := within
    refine Eq.trans ?_ (Tensor.get_ofFn within').symm
    match index, within' with
    | [i, c, y, x], ⟨first, column, third, fourth, _⟩ =>
      obtain rfl : i = 0 := Nat.lt_one_iff.mp first
      obtain rfl : y = 0 := Nat.lt_one_iff.mp third
      obtain rfl : x = 0 := Nat.lt_one_iff.mp fourth
      have at_ : (if (q : Int) < 0 then (q : Int) + ((arr.tensor.shape.getD 0 0 : Nat) : Int) else q).toNat = q := by
        rw [if_neg (by omega)]
        rfl
      show arr.tensor.get ((if (q : Int) < 0 then (q : Int) + ((arr.tensor.shape.getD 0 0 : Nat) : Int) else q).toNat ::
        [c, 0, 0]) = halfVal ((Mlvc.qptabRow t.host q).getD c 0)
      rw [at_]
      obtain ⟨-, listed, read⟩ := row_get of init below column
      rw [List.getD_eq_getElem?_getD, read, Option.getD_some, lossless _ _ init half _ listed]

end Row

/-! ## Feeding the rows -/

section Feed

variable {tobytes : Val K → UInt16} {g : Graph K} {names : List String} {s : QpState} {q : Nat}
  {feed : Flow.Env String (NdArray K)}

/-- What a loop has collected that looked at all readers. -/
abbrev Graph.Collects (g : Graph K) (names : List String) (tobytes : Val K → UInt16) (s : QpState) : Prop :=
  Collected tobytes g (g.qInputs names) ((g.qInputs names).flatMap g.consumers) s

omit [Field K] in
/-- A name that has a value at the start is moved by nothing. -/
theorem start_fixed (valid : g.Valid) (collected : g.Collects names tobytes s) {x : String} {v : NdArray K}
    (value : g.start feed x = some v) : x ∈ g.defined ∧ rewired s.rewires x = x := by
  have known : x ∈ g.inputNames ∨ x ∈ g.initNames := by
    by_cases input : x ∈ g.inputNames
    · exact .inl input
    · rw [Graph.start, if_neg input] at value
      exact .inr (mem_initNames value)
  have other : x ∉ g.qOutputs names := by
    intro gathered
    obtain ⟨-, input, init⟩ := qOutputs_apart collected valid gathered
    exact known.elim input init
  exact ⟨List.mem_append_left _ (List.mem_append.mpr known), rewired_other collected other⟩

/-- What comes under no row's name is fed alike. -/
theorem feedRows_other (collected : g.Collects names tobytes s) (fresh : g.FreshRows names) {x : String}
    (known : x ∈ g.defined) : feedRows s.tables q feed x = feed x := by
  have none : s.tables.find? (·.name = x) = none := by
    refine List.find?_eq_none.mpr fun t listed same => ?_
    have same : t.name = x := by simpa using same
    exact (row_fresh collected fresh listed).1 (same ▸ known)
  rw [feedRows, none]
  rfl

theorem feedRows_row (collected : g.Collects names tobytes s) {t : QpTable} (table : t ∈ s.tables) :
    feedRows s.tables q feed t.name = some (t.rowArray q) := by
  rw [feedRows, find?_name collected.names table]
  rfl

omit [Field K] in
/-- What is left of an initializer. -/
theorem rewrite_init (collected : g.Collects names tobytes s) {x : String} (kept : x ∉ g.qTables names) :
    (s.rewrite g (g.qInputs names)).init x = g.init x := by
  have stays : (g.initializer.filter fun init => init.name ∉ s.dropInits).find? (·.name = x) =
      g.initializer.find? (·.name = x) := by
    rw [List.find?_filter]
    refine congrFun (congrArg List.find? (funext fun init => ?_)) _
    by_cases same : init.name = x
    · rw [same]
      simp [mem_dropInits collected, kept]
    · simp [same]
  exact congrArg (Option.map Initializer.value) stays

end Feed

/-! ## Runs -/

section Runs

variable {tobytes : Val K → UInt16} {g : Graph K} {names : List String} {s : QpState} {q : Nat}
  {feed : Flow.Env String (NdArray K)} {ext : Flow.Meaning (Op K) (NdArray K)}

/-- The gathers that are taken out are along the first axis. -/
def Graph.FirstAxis (g : Graph K) (names : List String) : Prop :=
  ∀ n ∈ g.node, g.gathers names n = true →
    (⟨n.opType, n.attributes⟩ : Op K).attrI "axis" = 0 ∨ (⟨n.opType, n.attributes⟩ : Op K).attrI "axis" = -4

/-- The conditions under which the rows do for the gathers. -/
structure Graph.Clean (g : Graph K) (names : List String) : Prop where
  fresh : g.FreshRows names
  detached : g.Detached names
  fixed : ∀ x ∈ g.qTables names, x ∉ g.inputNames
  axis : g.FirstAxis names

/-- The graph that gathers beside the one that is given the rows. -/
structure Rows (g : Graph K) (names : List String) (s : QpState) (q : Nat) (env env' : Flow.Env String (NdArray K)) :
    Prop where
  agrees : Flow.Agrees (rewired s.rewires) (fun x => x ∉ g.qInputs names ∧ x ∉ g.qTables names) env env'
  inputs : ∀ qi ∈ g.qInputs names, ∃ a, env qi = some a ∧ IsIndex q a
  tables : ∀ x ∈ g.qTables names, env x = g.init x
  rows : ∀ t ∈ s.tables, env' t.name = some (t.rowArray q)

omit [Field K] in
/-- What is left of a node stands for it. -/
theorem rewire_flow (valid : g.Valid) (collected : g.Collects names tobytes s) (clean : g.Clean names)
    {n : NodeProto K} (node : n ∈ g.node) (kept : g.gathers names n = false) :
    (n.rewire (rewired s.rewires)).flow = n.flow.rename (rewired s.rewires) := by
  have other {x : String} (left : ¬g.Lost names x) : rewired s.rewires x = x :=
    rewired_other collected fun gathered => left (.inr (.inr gathered))
  have empty : rewired s.rewires "" = "" := by
    refine rewired_other collected fun gathered => ?_
    exact (qOutputs_apart collected valid gathered).1 rfl
  have named (x : String) : rewired s.rewires x = "" ↔ x = "" := by
    refine ⟨fun blank => ?_, fun blank => blank ▸ empty⟩
    by_contra some
    revert blank
    by_cases gives : x ∈ g.qOutputs names
    · obtain ⟨n', node', gathers, output⟩ := mem_qOutputs.mp gives
      obtain ⟨t, of⟩ := gathered collected valid node' gathers
      obtain ⟨y, -, one, row⟩ := of.output
      rw [one] at output
      rw [List.mem_singleton.mp output, row]
      exact (row_fresh collected clean.fresh of.table).2
    · rw [rewired_other collected gives]
      exact some
  simp only [NodeProto.flow, NodeProto.rewire, Flow.Node.rename, Flow.Node.mk.injEq, true_and, List.map_append, List.map_map]
  refine ⟨congrArg₂ _ ?_ ?_, ?_⟩
  · exact List.map_congr_left fun x _ => slot_map named x
  · exact List.map_congr_left fun x captured => congrArg some (other (clean.detached.captures n node x captured)).symm
  · refine List.map_congr_left fun x gives => ?_
    have stays := slot_map named x
    rw [other (kept_outputs collected valid node kept gives)] at stays
    exact stays

/-- The two graphs at the start. -/
theorem rows_start (valid : g.Valid) (collected : g.Collects names tobytes s) (clean : g.Clean names)
    (fed : ∀ qi ∈ g.qInputs names, ∃ a, feed qi = some a ∧ IsIndex q a) :
    Rows g names s q (g.start feed) ((s.rewrite g (g.qInputs names)).start (feedRows s.tables q feed)) := by
  constructor
  · intro x ⟨notInput, notTable⟩ v value
    obtain ⟨known, fixed⟩ := start_fixed valid collected value
    have listed : x ∈ (s.rewrite g (g.qInputs names)).inputNames ↔ x ∈ g.inputNames := by
      rw [mem_inputs]
      constructor
      · rintro ⟨input | ⟨t, table, name⟩, -⟩
        · exact input
        · exact absurd (name ▸ known) (row_fresh collected clean.fresh table).1
      · exact fun input => ⟨.inl input, .inr notInput⟩
    rw [fixed, Graph.start, rewrite_init collected notTable, feedRows_other collected clean.fresh known]
    simp only [listed]
    exact value
  · intro qi input
    obtain ⟨a, value, index⟩ := fed qi input
    refine ⟨a, ?_, index⟩
    rw [Graph.start, if_pos (mem_qInputs input).1, value]
    rfl
  · intro x table
    rw [Graph.start, if_neg (clean.fixed x table)]
  · intro t table
    have listed : t.name ∈ (s.rewrite g (g.qInputs names)).inputNames := by
      refine mem_inputs.mpr ⟨.inr ⟨t, table, rfl⟩, .inr fun qi => (row_fresh collected clean.fresh table).1 ?_⟩
      exact List.mem_append_left _ (List.mem_append_left _ (mem_qInputs qi).1)
    rw [Graph.start, if_pos listed, feedRows_row collected table]
    rfl

variable [LinearOrder K] [FloorRing K] [IsStrictOrderedRing K]

theorem toInt_natCast (n : Nat) : (Val.fin (n : K)).toInt = some (n : Int) := by
  have floor : ⌊(n : K)⌋ = (n : Int) := Int.floor_natCast n
  rw [Val.toInt, floor, if_pos (Int.cast_natCast n)]

theorem ints_index {q : Nat} {a : NdArray K} (index : IsIndex q a) : a.ints = some ⟨[1], [(q : Int)], rfl⟩ := by
  rw [NdArray.ints, index, if_pos (by simp [toInt_natCast])]
  simp [Tensor.map, toInt_natCast]

/-- What a gather that is taken out does. -/
theorem exec_gather (valid : g.Valid) (collected : g.Collects names tobytes s) (clean : g.Clean names)
    (lossless : Lossless tobytes g) {n : NodeProto K} {t : QpTable} (node : n ∈ g.node) (gathers : g.gathers names n = true)
    (of : g.Gathered names s n t) (below : q < t.rows) {env env' env₁ : Flow.Env String (NdArray K)}
    (rows : Rows g names s q env env') (done : n.flow.exec (meaning ext) env = some env₁) :
    ∃ y, n.output = [y] ∧ y ≠ "" ∧ rewired s.rewires y = t.name ∧ env₁ = env.set y (t.rowArray q) := by
  obtain ⟨y, named, output, row⟩ := of.output
  obtain ⟨index, rest, input, qi⟩ := of.input
  have known := (collected.tables t of.table).1
  obtain ⟨arr, init, half, shape, -⟩ := known.array
  have table : t.source ∈ g.qTables names := mem_qTables.mpr ⟨n, node, gathers, by rw [input]; rfl⟩
  obtain ⟨a, value, isIndex⟩ := rows.inputs index qi
  refine ⟨y, output, named, row, ?_⟩
  obtain ⟨args, vs, read, meant, written⟩ := Flow.exec_some.mp done
  have sourced : t.source ≠ "" := by
    intro empty
    exact valid.named.2.1 (empty ▸ mem_initNames init)
  have indexed : index ≠ "" := by
    intro empty
    exact valid.named.1 (empty ▸ (mem_qInputs qi).1)
  obtain ⟨more, args_eq⟩ : ∃ more, args = some arr :: some a :: more := by
    simp only [NodeProto.flow, input, List.map_cons, slot, if_neg sourced, if_neg indexed, List.cons_append,
      Flow.Env.readAll, rows.tables _ table, init, value, Option.bind_some, Option.map_eq_some_iff] at read
    obtain ⟨first, ⟨second, -, rfl⟩, rfl⟩ := read
    exact ⟨second, rfl⟩
  have axis : axisOf ((⟨n.opType, n.attributes⟩ : Op K).attrI "axis") arr.tensor.shape.length = 0 := by
    rw [shape]
    rcases clean.axis n node gathers with zero | back
    · rw [zero]
      rfl
    · rw [back]
      rfl
  obtain ⟨gathered, -⟩ := gather_row known init lossless below
  have gives : vs = [t.rowArray q] := by
    have op : n.flow.op = ⟨"Gather", n.attributes⟩ := congrArg (Op.mk · n.attributes) of.opType
    rw [of.opType] at axis
    rw [op, args_eq] at meant
    simp [meaning, Op.isBuiltin, builtins, builtin, ints_index isIndex, axis, gathered] at meant
    rw [← meant, half]
    rfl
  rw [gives] at written
  simp only [NodeProto.flow, output, List.map_cons, List.map_nil, slot, if_neg named, Flow.Env.writeAll,
    Option.some.injEq] at written
  exact written.symm

/-- A gather that is taken out leaves the two graphs alike. -/
theorem Rows.gather (valid : g.Valid) (collected : g.Collects names tobytes s) (clean : g.Clean names)
    (lossless : Lossless tobytes g) (covered : ∀ t ∈ s.tables, q < t.rows) {n : NodeProto K} (node : n ∈ g.node)
    (gathers : g.gathers names n = true) {env env' env₁ : Flow.Env String (NdArray K)}
    (rows : Rows g names s q env env') (done : n.flow.exec (meaning ext) env = some env₁) :
    Rows g names s q env₁ env' := by
  obtain ⟨t, of⟩ := gathered collected valid node gathers
  obtain ⟨y, output, named, row, rfl⟩ :=
    exec_gather valid collected clean lossless node gathers of (covered t of.table) rows done
  have gives : y ∈ n.output := by
    rw [output]
    exact List.mem_singleton_self y
  obtain ⟨notInput, notInit⟩ := valid.apart n node y gives named
  constructor
  · intro x known v value
    by_cases same : x = y
    · rw [same, Flow.Env.set_self] at value
      rw [same, row, ← value]
      exact rows.rows t of.table
    · rw [Flow.Env.set_ne same] at value
      exact rows.agrees x known v value
  · intro qi input
    obtain ⟨a, value, index⟩ := rows.inputs qi input
    refine ⟨a, ?_, index⟩
    rw [Flow.Env.set_ne fun same => ?_]
    · exact value
    · rw [← same] at notInput
      exact notInput (mem_qInputs input).1
  · intro x table
    rw [Flow.Env.set_ne fun same => ?_]
    · exact rows.tables x table
    · rw [← same] at notInit
      exact notInit (qTables_init collected valid table)
  · exact rows.rows

omit [IsStrictOrderedRing K] in
theorem Rows.keep (valid : g.Valid) (collected : g.Collects names tobytes s) (clean : g.Clean names) {n : NodeProto K}
    (node : n ∈ g.node) (kept : g.gathers names n = false) {env env' env₁ : Flow.Env String (NdArray K)}
    (rows : Rows g names s q env env') (done : n.flow.exec (meaning ext) env = some env₁) :
    ∃ env₁', (n.rewire (rewired s.rewires)).flow.exec (meaning ext) env' = some env₁' ∧ Rows g names s q env₁ env₁' := by
  have known : ∀ x, some x ∈ n.flow.reads → x ∉ g.qInputs names ∧ x ∉ g.qTables names := by
    intro x reads
    rcases mem_reads.mp reads with ⟨-, input⟩ | captured
    · constructor
      · intro qi
        rw [gathers_iff.mpr ⟨x, qi, input⟩] at kept
        cases kept
      · intro table
        exact clean.fixed x table (clean.detached.readers n node kept x input table)
    · have left := clean.detached.captures n node x captured
      exact ⟨fun qi => left (.inl qi), fun table => left (.inr (.inl ⟨table, clean.fixed x table⟩))⟩
  have gives {x : String} (writes : some x ∈ n.flow.writes) : x ≠ "" ∧ x ∈ n.output ∧ x ∈ g.defined := by
    obtain ⟨named, output⟩ := mem_writes.mp writes
    exact ⟨named, output, List.mem_append_right _ (List.mem_flatMap.mpr ⟨n, node, output⟩)⟩
  have fixed {x : String} (writes : some x ∈ n.flow.writes) : rewired s.rewires x = x :=
    rewired_other collected fun gathered =>
      kept_outputs collected valid node kept (gives writes).2.1 (.inr (.inr gathered))
  have apart : ∀ x, some x ∈ n.flow.writes → ∀ y, (y ∉ g.qInputs names ∧ y ∉ g.qTables names) →
      rewired s.rewires y = rewired s.rewires x → y = x := by
    intro x writes y _ same
    rw [fixed writes] at same
    by_cases output : y ∈ g.qOutputs names
    · obtain ⟨n', node', gathers, output⟩ := mem_qOutputs.mp output
      obtain ⟨t, of⟩ := gathered collected valid node' gathers
      obtain ⟨z, -, one, row⟩ := of.output
      rw [one] at output
      rw [List.mem_singleton.mp output, row] at same
      exact absurd (same ▸ (gives writes).2.2) (row_fresh collected clean.fresh of.table).1
    · rw [rewired_other collected output] at same
      exact same
  obtain ⟨env₁', done', agrees⟩ := Flow.exec_rename rows.agrees known apart done
  rw [← rewire_flow valid collected clean node kept] at done'
  refine ⟨env₁', done', agrees, fun qi input => ?_, fun x table => ?_, fun t table => ?_⟩
  · obtain ⟨a, value, index⟩ := rows.inputs qi input
    refine ⟨a, ?_, index⟩
    rw [Flow.exec_other done fun writes => ?_]
    · exact value
    · obtain ⟨named, output, -⟩ := gives writes
      exact (valid.apart n node qi output named).1 (mem_qInputs input).1
  · rw [Flow.exec_other done fun writes => ?_]
    · exact rows.tables x table
    · obtain ⟨named, output, -⟩ := gives writes
      exact (valid.apart n node x output named).2 (qTables_init collected valid table)
  · rw [Flow.exec_other done' fun writes => ?_]
    · exact rows.rows t table
    · rw [rewire_flow valid collected clean node kept] at writes
      obtain ⟨x, writes, same⟩ := List.mem_map.mp writes
      obtain ⟨y, rfl, row⟩ := Option.map_eq_some_iff.mp same
      rw [fixed writes] at row
      exact (row_fresh collected clean.fresh table).1 (row ▸ (gives writes).2.2)

/-- **The rows do for the gathers**: where the graph is clean, the rewritten one gives every output the same value. -/
theorem rewrite_results (valid : g.Valid) (collected : g.Collects names tobytes s) (clean : g.Clean names)
    (lossless : Lossless tobytes g) (covered : ∀ t ∈ s.tables, q < t.rows)
    (fed : ∀ qi ∈ g.qInputs names, ∃ a, feed qi = some a ∧ IsIndex q a) {outs : List (String × NdArray K)}
    (results : g.results ext feed = some outs) :
    (s.rewrite g (g.qInputs names)).results ext (feedRows s.tables q feed) = some outs := by
  obtain ⟨env, run, outputs⟩ := Option.bind_eq_some_iff.mp results
  have kept : ∀ n ∈ g.node, (!g.gathers names n) = true → ∀ env env' env₁, Rows g names s q env env' →
      n.flow.exec (meaning ext) env = some env₁ →
        ∃ env₁', (n.rewire (rewired s.rewires)).flow.exec (meaning ext) env' = some env₁' ∧
          Rows g names s q env₁ env₁' := by
    intro n node keep env env' env₁ rows done
    exact rows.keep valid collected clean node (by simpa using keep) done
  have dropped : ∀ n ∈ g.node, (!g.gathers names n) = false → ∀ env env' env₁, Rows g names s q env env' →
      n.flow.exec (meaning ext) env = some env₁ → Rows g names s q env₁ env' := by
    intro n node drop env env' env₁ rows done
    exact rows.gather valid collected clean lossless covered node (by simpa using drop) done
  obtain ⟨env', run', rows⟩ := Flow.run_kept kept dropped (rows_start valid collected clean fed) run
  have nodes : (s.rewrite g (g.qInputs names)).node.map NodeProto.flow =
      (g.node.filter fun n => !g.gathers names n).map fun n => (n.rewire (rewired s.rewires)).flow := by
    rw [rewrite_node collected, List.map_map]
    rfl
  rw [← nodes] at run'
  refine Option.bind_eq_some_iff.mpr ⟨env', run', mapM_agrees (fun x output v value => ?_) outputs⟩
  have left := clean.detached.outputs x output
  have fixed := rewired_other collected fun gathered => left (.inr (.inr gathered))
  have agrees := rows.agrees x
    ⟨fun qi => left (.inl qi), fun table => left (.inr (.inl ⟨table, clean.fixed x table⟩))⟩ v value
  rw [fixed] at agrees
  exact agrees

/-- **What `make_qp_dynamic` accepts** is rewritten into a closed graph exactly where nothing else read what
is taken out, and into one that computes the same where also the gathers are along the first axis of tables
that are no inputs. -/
theorem qp_dynamic_spec {g' : Graph K} {tables : List QpTable} (valid : g.Valid) (lossless : Lossless tobytes g)
    (made : makeQpDynamic tobytes names g = .ok (g', tables)) :
    (g.FreshRows names → (g'.Closed ↔ g.Detached names)) ∧
      (g.Clean names → g'.Closed ∧
        ∀ (ext : Flow.Meaning (Op K) (NdArray K)) (feed : Flow.Env String (NdArray K)) (q : Nat)
          (outs : List (String × NdArray K)), (∀ t ∈ tables, q < t.rows) →
          (∀ qi ∈ g.qInputs names, ∃ a, feed qi = some a ∧ IsIndex q a) → g.results ext feed = some outs →
            g'.results ext (feedRows tables q feed) = some outs) := by
  obtain ⟨s, rfl, rfl, collected⟩ := makeQpDynamic_spec made
  refine ⟨rewrite_closed_iff collected valid, fun clean => ⟨?_, ?_⟩⟩
  · exact (rewrite_closed_iff collected valid clean.fresh).mpr clean.detached
  · intro ext feed q outs covered fed results
    exact rewrite_results valid collected clean lossless covered fed results

end Runs

/-! ## A small graph -/

/-- A table of two rows. -/
def smallArray : NdArray ℚ where
  dtype := .float16
  tensor := ⟨[2, 1, 1, 1], [.fin 0, .fin 1], rfl⟩

/-- `tobytes` of what is in it. -/
def smallBytes : Val ℚ → UInt16
  | .fin 1 => 0x3c00
  | _ => 0

/-- A row is gathered, and used by another node, or not. -/
def smallGraph (used : Bool) : Graph ℚ where
  node := { opType := "Gather", input := ["model.q_enc", "q_index"], output := ["row"] } ::
    if used then [{ opType := "Add", input := ["x", "row"], output := ["y"] }] else []
  initializer := [{ name := "model.q_enc", value := smallArray }]
  input := [{ name := "x" }, { name := "q_index" }]
  output := [{ name := if used then "y" else "row" }]

theorem smallGraph_valid (used : Bool) : (smallGraph used).Valid := by
  constructor
  · cases used <;> decide +kernel
  · cases used <;> decide +kernel
  · cases used <;> decide +kernel
  · cases used <;> decide +kernel
  · cases used <;> decide +kernel
  · cases used <;> decide +kernel
  · apply plain_of
    cases used <;> decide +kernel
  · cases used <;> decide +kernel
  · cases used <;> decide +kernel

theorem smallGraph_lossless (used : Bool) : Lossless smallBytes (smallGraph used) := by
  have halves : ∀ v ∈ smallArray.tensor.data, halfVal (smallBytes v) = v := by decide +kernel
  intro name arr init _
  obtain ⟨found, listed, rfl⟩ := Option.map_eq_some_iff.mp init
  have same : found ∈ (smallGraph used).initializer := List.mem_of_find?_eq_some listed
  rw [List.mem_singleton.mp same]
  exact halves

/-- The tool accepts both graphs, and leaves only one of them closed. -/
theorem smallGraph_made (used : Bool) : ∃ g' tables,
    makeQpDynamic smallBytes qIndexNames (smallGraph used) = .ok (g', tables) ∧ (g'.Closed ↔ used = true) ∧
      tables.map (·.rows) = [2] := by
  have facts : (makeQpDynamic smallBytes qIndexNames (smallGraph used)).toOption.map
      (fun r => (decide r.1.Closed, r.2.map (·.rows))) = some (used, [2]) := by
    cases used <;> decide +kernel
  obtain ⟨⟨g', tables⟩, made, shapes⟩ := Option.map_eq_some_iff.mp facts
  rw [Prod.mk.injEq] at shapes
  refine ⟨g', tables, ?_, ?_, shapes.2⟩
  · generalize makeQpDynamic smallBytes qIndexNames (smallGraph used) = r at made
    cases r with
    | error e => cases made
    | ok r =>
      cases made
      rfl
  · rw [← shapes.1, decide_eq_true_eq]

/-- A gathered row that is an output of the graph is lost. -/
theorem qp_dynamic_dangles : ∃ g g' tables, g.Valid ∧ Lossless smallBytes g ∧
    makeQpDynamic smallBytes qIndexNames g = .ok (g', tables) ∧ ¬g'.Closed := by
  obtain ⟨g', tables, made, closed, -⟩ := smallGraph_made false
  exact ⟨smallGraph false, g', tables, smallGraph_valid false, smallGraph_lossless false, made,
    fun is => Bool.false_ne_true (closed.mp is)⟩

/-- The second operand. -/
def smallExt : Flow.Meaning (Op ℚ) (NdArray ℚ) := fun _ args => (args[1]?).join.map ([·])

def smallFeed : Flow.Env String (NdArray ℚ) := fun name =>
  if name = "q_index" then some ⟨.int64, ⟨[1], [.fin 1], rfl⟩⟩
  else if name = "x" then some ⟨.float16, ⟨[1, 1, 1, 1], [.fin 0], rfl⟩⟩
  else none

theorem qp_dynamic_small : ∃ g' tables, makeQpDynamic smallBytes qIndexNames (smallGraph true) = .ok (g', tables) ∧
    g'.Closed ∧ g'.results smallExt (feedRows tables 1 smallFeed) =
      some [("y", ⟨.float16, ⟨[1, 1, 1, 1], [.fin 1], rfl⟩⟩)] := by
  obtain ⟨g', tables, made, -, rows⟩ := smallGraph_made true
  have clean : (smallGraph true).Clean qIndexNames := by
    constructor
    · unfold Graph.FreshRows
      decide +kernel
    · constructor
      · decide +kernel
      · decide +kernel
      · decide +kernel
    · decide +kernel
    · unfold Graph.FirstAxis
      decide +kernel
  obtain ⟨closed, same⟩ := (qp_dynamic_spec (smallGraph_valid true) (smallGraph_lossless true) made).2 clean
  refine ⟨g', tables, made, closed, same smallExt smallFeed 1 _ ?_ ?_ (by decide +kernel)⟩
  · intro t listed
    have := List.mem_map_of_mem (f := fun t : QpTable => t.rows) listed
    rw [rows, List.mem_singleton] at this
    rw [this]
    decide
  · intro qi input
    have only : (smallGraph true).qInputs qIndexNames = ["q_index"] := by decide +kernel
    rw [only] at input
    rw [List.mem_singleton.mp input]
    exact ⟨_, rfl, rfl⟩

end Rkvc.Onnx
