import Rkvc.Onnx.Constants
import Rkvc.Onnx.QpDynamic

/-!
# Heads and tails

`onnx_extract.py` takes the reorderings at the borders of a graph out of it, to be done on the
CPU. Of what it takes out it looks at the operator and the block size: the mode and the bounds are
written into the report only.
-/

namespace Rkvc.Onnx
set_option autoImplicit false
open Lib

structure ExtractReport (K : Type) where
  op : String
  blocksize : Nat
  inName : String
  outName : String
  inShape : List Nat
  outShape : List Nat
  clipLo : Option (Val K) := none
  clipHi : Option (Val K) := none
  mode : String := ""
  notes : List String := []

variable {K : Type}

/-! ## Value infos -/

def setDims (dims : List Nat) (vi : ValueInfo) : ValueInfo := { vi with dims := dims.map fun d => some (d : Int) }

/-- Change the first that has a name. -/
def modifyFirst (name : String) (f : ValueInfo → ValueInfo) : List ValueInfo → List ValueInfo
  | [] => []
  | vi :: vis => if vi.name = name then f vi :: vis else vi :: modifyFirst name f vis

namespace Graph

variable (g : Graph K)

/-- `_graph_input_names`. -/
def graphInputNames : List String := g.inputNames.filter (· ∉ g.initNames)

/-- Change what `_find_value_info` finds. -/
def modifyValueInfo (name : String) (f : ValueInfo → ValueInfo) : Graph K :=
  if name ∈ g.inputNames then { g with input := modifyFirst name f g.input }
  else if name ∈ g.valueInfo.map (·.name) then { g with valueInfo := modifyFirst name f g.valueInfo }
  else { g with output := modifyFirst name f g.output }

def dropValueInfo (names : List String) : Graph K :=
  { g with valueInfo := g.valueInfo.filter fun vi => vi.name ∉ names }

end Graph

/-! ## Nodes -/

/-- `_blocksize`. -/
def NodeProto.blocksize (n : NodeProto K) : Int := (⟨n.opType, n.attributes⟩ : Op K).attrI "blocksize"

/-- `_node_key`. -/
def NodeProto.key (n : NodeProto K) : String :=
  let outputs := ",".intercalate n.output
  if n.name ≠ "" then n.name else s!"{n.opType}:{outputs}"

/-- One name for another. -/
def swap (old new name : String) : String := if name = old then new else name

namespace Graph

variable (g : Graph K)

/-- `_rewire_uses`. -/
def rewireUses (old new : String) : Graph K :=
  { g with
    node := g.node.map (NodeProto.rewire (swap old new))
    output := g.output.map fun vi => { vi with name := swap old new vi.name } }

/-- What `_rewire_uses` counts. -/
def uses (old : String) : Nat := (g.node.flatMap (·.input)).count old + g.outputNames.count old

def dropNodes (keys : List String) : Graph K := { g with node := g.node.filter fun n => n.key ∉ keys }

end Graph

/-- `infer_shapes`, and the text of what it raises. -/
abbrev Infer (K : Type) := Graph K → Except String (Graph K)

/-- Inference at the end; that it fails is a note. -/
def Graph.inferred (infer : Infer K) (g : Graph K) : Graph K × List String :=
  match infer g with
  | .ok g' => (g', [])
  | .error exc => (g, [s!"shape_inference: {exc}"])

/-! ## The head -/

/-- A list or `None`, as it is printed. -/
def dimsText : Option (List Nat) → String
  | none => "None"
  | some dims => "[" ++ ", ".intercalate (dims.map toString) ++ "]"

/-- `SpaceToDepth` of an input. -/
def Graph.isHead (g : Graph K) (n : NodeProto K) : Bool :=
  n.opType = "SpaceToDepth" ∧ n.input ≠ [] ∧ n.output ≠ [] ∧ n.input.headD "" ∈ g.graphInputNames

def Graph.head (g : Graph K) : Option (NodeProto K) := g.node.find? g.isHead

/-- The four extents of the input, inferred where they are not known. -/
def headShape (infer : Infer K) (g : Graph K) (src : String) :
    Except OnnxRewriteError (Graph K × Option (List Nat)) :=
  match g.shapeOf src with
  | some [n, c, h, w] => .ok (g, some [n, c, h, w])
  | _ =>
    match infer g with
    | .error exc => .error ⟨s!"无法推断 SpaceToDepth 输入形状: {exc}"⟩
    | .ok inferred => .ok (inferred, inferred.shapeOf src)

/-- The graph without its head. -/
def Graph.behead (g : Graph K) (src dst key : String) : Graph K :=
  ((g.rewireUses dst src).dropNodes [key]).dropValueInfo [dst]

def extractLeadingSpaceToDepth (infer : Infer K) (g : Graph K) :
    Except OnnxRewriteError (Graph K × ExtractReport K) :=
  match g.head with
  | none => .error ⟨"没有以图输入为源的 SpaceToDepth"⟩
  | some target =>
    if target.blocksize < 2 then .error ⟨s!"SpaceToDepth blocksize 无效: {target.blocksize}"⟩
    else
      let bs := target.blocksize.toNat
      let src := target.input.headD ""
      let dst := target.output.headD ""
      match headShape infer g src with
      | .error e => .error e
      | .ok (g, some [n, c, h, w]) =>
        if h % bs ≠ 0 ∨ w % bs ≠ 0 then .error ⟨s!"{h}x{w} 不能被 blocksize={bs} 整除"⟩
        else
          let outShape := [n, c * bs * bs, h / bs, w / bs]
          if g.uses dst < 1 then .error ⟨"SpaceToDepth 输出没有消费者"⟩
          else if (g.behead src dst target.key).findValueInfo src = none then .error ⟨s!"找不到图输入 {src}"⟩
          else
            let inferred := ((g.behead src dst target.key).modifyValueInfo src (setDims outShape)).inferred infer
            .ok (inferred.1,
              { op := "SpaceToDepth", blocksize := bs, inName := src, outName := src, inShape := [n, c, h, w], outShape,
                notes := inferred.2 ++ [s!"rewired_uses={g.uses dst}"] })
      | .ok (_, inShape) => .error ⟨s!"SpaceToDepth 输入 {src} 无固定 NCHW 形状: {dimsText inShape}"⟩

/-! ## The tail -/

/-- `producers.get`: the last node that gives a name. -/
def Graph.producer (g : Graph K) (name : String) : Option (NodeProto K) :=
  g.node.reverse.find? fun n => name ∈ n.output

/-- What stands before the output `x_hat`. -/
structure Tail (K : Type) where
  d2s : NodeProto K
  clip : Option (NodeProto K) := none
  clipLo : Option (Val K) := none
  clipHi : Option (Val K) := none
  deriving DecidableEq

namespace Tail

variable (tail : Tail K)

def keys : List String := tail.d2s.key :: (tail.clip.map NodeProto.key).toList

def convOut : String := tail.d2s.input.headD ""

def d2sOut : String := tail.d2s.output.headD ""

end Tail

/-- What Python raises where a list has no such entry. -/
def indexError : OnnxRewriteError := ⟨"list index out of range"⟩

def Graph.tailOf (g : Graph K) (xHat : String) : Except OnnxRewriteError (Tail K) :=
  match g.producer xHat with
  | none => .error ⟨s!"{xHat} 没有生产者"⟩
  | some tail =>
    let other : Except OnnxRewriteError (Tail K) :=
      .error ⟨s!"x_hat 前不是 DepthToSpace/Clip(DepthToSpace)，而是 {tail.opType}"⟩
    if tail.opType = "Clip" then
      let bound (i : Nat) := if tail.input.length ≥ 3 then g.constantScalar (tail.input.getD i "") else none
      match tail.input with
      | [] => .error indexError
      | shuffled :: _ =>
        match g.producer shuffled with
        | none => other
        | some d2s =>
          if d2s.opType ≠ "DepthToSpace" then other
          else .ok { d2s, clip := some tail, clipLo := bound 1, clipHi := bound 2 }
    else if tail.opType = "DepthToSpace" then .ok { d2s := tail }
    else other

/-- The mode, `DCR` where it is not set. -/
def NodeProto.mode (n : NodeProto K) : String :=
  (((n.attributes.filter fun a => a.name = "mode" ∧ a.s ≠ "").getLast?).map Attribute.s).getD "DCR"

/-- `new or old`. -/
def orElse (new old : Option (List Nat)) : Option (List Nat) := if new = some [] then old else new.or old

/-- The shapes before and behind `DepthToSpace`, inferred where they are not known. -/
def tailShapes (infer : Infer K) (g : Graph K) (before behind : String) :
    Graph K × Option (List Nat) × Option (List Nat) :=
  let inShape := g.shapeOf before
  let outShape := g.shapeOf behind
  if inShape = none ∨ outShape = none then
    let inferred := (g.inferred infer).1
    (inferred, orElse (inferred.shapeOf before) inShape, orElse (inferred.shapeOf behind) outShape)
  else (g, inShape, outShape)

/-- The outputs with another `x_hat`, and without what it is made of. -/
def replaceOutput (xHat convOut : String) (newOut : ValueInfo) (outputs : List ValueInfo) : List ValueInfo :=
  let newOutputs := outputs.filterMap fun vi =>
    if vi.name = xHat then some newOut else if vi.name = convOut then none else some vi
  if xHat ∈ outputs.map (·.name) then newOutputs else newOut :: newOutputs

/-- The graph without its tail. -/
def Graph.curtail (g : Graph K) (tail : Tail K) (xHat : ValueInfo) (inShape : List Nat) : Graph K :=
  let g := (g.dropNodes tail.keys).dropValueInfo [tail.d2sOut, xHat.name]
  { g with output := replaceOutput xHat.name tail.convOut (setDims inShape xHat) g.output }

def Graph.renameNodes (g : Graph K) (old new : String) : Graph K :=
  { g with node := g.node.map (NodeProto.rename (swap old new)) }

/-- The names that the nodes read and give. -/
def Graph.live (g : Graph K) : List String := g.node.flatMap fun n => n.input ++ n.output

/-- The output that the decoder takes for the picture. -/
def Graph.xHat (g : Graph K) : Option ValueInfo := g.output.find? (hasKey "x_hat" ·.name)

def extractTrailingDepthToSpace (infer : Infer K) (g : Graph K) :
    Except OnnxRewriteError (Graph K × ExtractReport K) :=
  match g.xHat with
  | none => .error ⟨"没有名为 x_hat 的图输出"⟩
  | some xHat =>
    match g.tailOf xHat.name with
    | .error e => .error e
    | .ok tail =>
      if tail.d2s.blocksize < 2 then .error ⟨s!"DepthToSpace blocksize 无效: {tail.d2s.blocksize}"⟩
      else if tail.d2s.input = [] then .error indexError
      else
        let clipOut := (tail.clip.map fun clip => clip.output.headD "").getD xHat.name
        match tailShapes infer g tail.convOut tail.d2sOut with
        | (_, none, _) => .error ⟨s!"无法取得 DepthToSpace 输入形状 {tail.convOut}"⟩
        | (g, some inShape, outShape) =>
          let short := g.curtail tail xHat inShape
          if tail.d2sOut ∈ short.live ∨ clipOut ≠ xHat.name ∧ clipOut ∈ short.live then
            .error ⟨"DepthToSpace/Clip 输出仍被图内节点引用，不是纯图尾"⟩
          else
            let renamed := (short.node.flatMap (·.output)).count tail.convOut
            -- what is found of an output is out of the graph by now
            let inferred := ((short.renameNodes tail.convOut xHat.name).modifyValueInfo tail.convOut fun vi =>
              setDims inShape { vi with name := xHat.name }).inferred infer
            .ok (inferred.1,
              { op := "DepthToSpace", blocksize := tail.d2s.blocksize.toNat, inName := xHat.name, outName := xHat.name,
                inShape, outShape := outShape.getD [], clipLo := tail.clipLo, clipHi := tail.clipHi,
                mode := tail.d2s.mode,
                notes := inferred.2 ++ if renamed ≠ 1 then [s!"renamed_outputs={renamed}"] else [] })

/-! ## What is left -/

section Left

/-- Another graph that computes the same, from the same inputs. -/
structure Graph.Like (g g' : Graph K) : Prop where
  node : g'.node = g.node
  initializer : g'.initializer = g.initializer
  input : g'.input = g.input
  outputs : g'.outputNames = g.outputNames

/-- Inference adds shapes to what is inside a graph and to what it gives. -/
def Infer.Lawful (infer : Infer K) : Prop := ∀ g g', infer g = .ok g' → g.Like g'

variable {infer : Infer K} {g g' : Graph K} {report : ExtractReport K}

theorem Graph.Like.refl (g : Graph K) : g.Like g := ⟨rfl, rfl, rfl, rfl⟩

/-- Inference that has nothing to add. -/
def keepShapes : Infer ℚ := fun g => .ok g

theorem keepShapes_lawful : Infer.Lawful keepShapes := by
  intro g g' same
  cases same
  exact .refl g

theorem inferred_like (lawful : Infer.Lawful infer) (g : Graph K) : g.Like (g.inferred infer).1 := by
  unfold Graph.inferred
  split
  · exact lawful g _ ‹_›
  · exact .refl g

theorem headShape_like (lawful : Infer.Lawful infer) {src : String} {shape : Option (List Nat)}
    (known : headShape infer g src = .ok (g', shape)) : g.Like g' := by
  unfold headShape at known
  split at known
  · cases known
    exact .refl g
  · split at known
    · cases known
    · cases known
      exact lawful g _ ‹_›

theorem tailShapes_like (lawful : Infer.Lawful infer) (before behind : String) :
    g.Like (tailShapes infer g before behind).1 := by
  unfold tailShapes
  simp only
  split
  · exact inferred_like lawful g
  · exact .refl g

theorem shapeOf_pos {name : String} {dims : List Nat} (known : g.shapeOf name = some dims) : ∀ d ∈ dims, 0 < d := by
  obtain ⟨vi, -, read⟩ := Option.bind_eq_some_iff.mp known
  clear known
  generalize vi.dims = declared at read
  induction declared generalizing dims with
  | nil =>
    cases read
    exact fun d listed => absurd listed List.not_mem_nil
  | cons d declared ih =>
    rw [List.mapM_cons] at read
    obtain ⟨first, one, rest⟩ := Option.bind_eq_some_iff.mp read
    obtain ⟨later, others, eq⟩ := Option.bind_eq_some_iff.mp rest
    cases eq
    obtain ⟨n, static, rfl⟩ := Option.map_eq_some_iff.mp one
    obtain ⟨-, positive⟩ := Option.filter_eq_some_iff.mp static
    refine List.forall_mem_cons.mpr ⟨?_, ih others⟩
    have := of_decide_eq_true positive
    omega

theorem tailShapes_pos {before behind : String} {inShape : List Nat} {outShape : Option (List Nat)}
    (shapes : tailShapes infer g before behind = (g', some inShape, outShape)) : ∀ d ∈ inShape, 0 < d := by
  unfold tailShapes at shapes
  simp only at shapes
  split at shapes
  · rw [Prod.mk.injEq, Prod.mk.injEq] at shapes
    obtain ⟨-, first, -⟩ := shapes
    unfold orElse at first
    split at first
    · exact shapeOf_pos first
    · rcases Option.or_eq_some_iff.mp first with new | ⟨-, old⟩
      · exact shapeOf_pos new
      · exact shapeOf_pos old
  · rw [Prod.mk.injEq, Prod.mk.injEq] at shapes
    exact shapeOf_pos shapes.2.1

theorem modifyFirst_names {name : String} {f : ValueInfo → ValueInfo} {vis : List ValueInfo}
    (keeps : ∀ vi ∈ vis, vi.name = name → (f vi).name = name) :
    (modifyFirst name f vis).map (·.name) = vis.map (·.name) := by
  induction vis with
  | nil => rfl
  | cons vi vis ih =>
    rw [modifyFirst]
    split
    · rename_i same
      rw [List.map_cons, List.map_cons, keeps vi List.mem_cons_self same, same]
    · rw [List.map_cons, List.map_cons, ih fun vi listed => keeps vi (List.mem_cons_of_mem _ listed)]

theorem Graph.Like.inputNames (like : g.Like g') : g'.inputNames = g.inputNames :=
  congrArg (List.map ValueInfo.name) like.input

/-- A graph like a well-formed one. -/
theorem Graph.Like.valid (like : g.Like g') (valid : g.Valid) : g'.Valid := by
  have inits : g'.initNames = g.initNames := congrArg (List.map Initializer.name) like.initializer
  have inputs := like.inputNames
  have closed : g'.Closed := by
    rw [Graph.Closed, Graph.defined, like.node, inputs, inits, like.outputs]
    exact valid.closed
  constructor
  · exact like.node ▸ valid.single
  · rw [like.node, inputs, inits]
    exact valid.apart
  · exact inputs ▸ valid.inputs
  · exact inits ▸ valid.initializers
  · rw [inputs, inits, like.outputs]
    exact valid.named
  · exact closed
  · exact like.node ▸ valid.plain
  · exact like.node ▸ valid.captures
  · exact like.node ▸ valid.attributes

theorem Graph.Like.start (like : g.Like g') (feed : Flow.Env String (NdArray K)) : g'.start feed = g.start feed := by
  funext name
  rw [Graph.start, Graph.start, like.inputNames, Graph.init, Graph.init, like.initializer]

theorem modifyValueInfo_input {name : String} {f : ValueInfo → ValueInfo} (input : name ∈ g.inputNames) :
    g.modifyValueInfo name f = { g with input := modifyFirst name f g.input } := if_pos input

theorem behead_left {src dst key : String} {outShape : List Nat} (input : src ∈ g.inputNames)
    (after : ((g.behead src dst key).modifyValueInfo src (setDims outShape)).Like g') :
    g'.node = (g.node.filter fun n => n.key ≠ key).map (NodeProto.rewire (swap dst src)) ∧
      g'.initializer = g.initializer ∧ g'.input = modifyFirst src (setDims outShape) g.input ∧
      g'.outputNames = g.outputNames.map (swap dst src) := by
  have known : src ∈ (g.behead src dst key).inputNames := input
  rw [modifyValueInfo_input known] at after
  refine ⟨after.node.trans ?_, after.initializer, after.input, after.outputs.trans ?_⟩
  · simp only [Graph.behead, Graph.dropValueInfo, Graph.dropNodes, Graph.rewireUses, List.filter_map, List.mem_singleton]
    rfl
  · simp only [Graph.behead, Graph.dropValueInfo, Graph.dropNodes, Graph.rewireUses, Graph.outputNames, List.map_map]
    rfl

/-- What is left of a graph whose head is taken out. -/
structure Beheaded (g g' : Graph K) (target : NodeProto K) (report : ExtractReport K) : Prop where
  node : g'.node = (g.node.filter fun n => n.key ≠ target.key).map
    (NodeProto.rewire (swap (target.output.headD "") (target.input.headD "")))
  initializer : g'.initializer = g.initializer
  input : g'.input = modifyFirst (target.input.headD "") (setDims report.outShape) g.input
  outputs : g'.outputNames = g.outputNames.map (swap (target.output.headD "") (target.input.headD ""))
  blocksize : 2 ≤ report.blocksize ∧ target.blocksize = report.blocksize
  shape : ∃ n c h w, report.inShape = [n, c, h, w] ∧ h % report.blocksize = 0 ∧ w % report.blocksize = 0 ∧
    report.outShape = [n, c * report.blocksize * report.blocksize, h / report.blocksize, w / report.blocksize]

theorem isHead_iff {n : NodeProto K} : g.isHead n = true ↔ n.opType = "SpaceToDepth" ∧
    (∃ src rest, n.input = src :: rest ∧ src ∈ g.inputNames ∧ src ∉ g.initNames) ∧ ∃ dst more, n.output = dst :: more := by
  simp only [Graph.isHead, Graph.graphInputNames, decide_eq_true_eq, List.mem_filter, ne_eq]
  constructor
  · rintro ⟨op, reads, gives, input⟩
    obtain ⟨src, rest, input'⟩ := List.exists_cons_of_ne_nil reads
    refine ⟨op, ⟨src, rest, input', ?_⟩, List.exists_cons_of_ne_nil gives⟩
    rw [input'] at input
    exact input
  · rintro ⟨op, ⟨src, rest, input, known⟩, dst, more, output⟩
    rw [input, output]
    exact ⟨op, List.cons_ne_nil _ _, List.cons_ne_nil _ _, known⟩

theorem extractLeading_spec (lawful : Infer.Lawful infer)
    (made : extractLeadingSpaceToDepth infer g = .ok (g', report)) :
    ∃ target, g.head = some target ∧ Beheaded g g' target report := by
  unfold extractLeadingSpaceToDepth at made
  cases head : g.head with
  | none =>
    rw [head] at made
    cases made
  | some target =>
    rw [head] at made
    simp only at made
    split at made
    · cases made
    · rename_i big
      cases known : headShape infer g (target.input.headD "") with
      | error e =>
        rw [known] at made
        cases made
      | ok known' =>
        obtain ⟨g₁, shape⟩ := known'
        have like := headShape_like lawful known
        rw [known] at made
        split at made
        · cases made
        · rename_i n c h w same
          cases same
          split at made
          · cases made
          · rename_i divides
            split at made
            · cases made
            · split at made
              · cases made
              · cases made
                refine ⟨target, rfl, ?_⟩
                have source : target.input.headD "" ∈ g.inputNames := by
                  obtain ⟨-, ⟨src, rest, reads, input, -⟩, -⟩ := isHead_iff.mp (List.find?_some head)
                  rw [reads]
                  exact input
                have source₁ : target.input.headD "" ∈ g₁.inputNames := like.inputNames ▸ source
                obtain ⟨node, initializer, input, outputs⟩ := behead_left source₁ (inferred_like lawful _)
                rw [not_or, not_not, not_not] at divides
                constructor
                · exact like.node ▸ node
                · exact initializer.trans like.initializer
                · exact like.input ▸ input
                · exact like.outputs ▸ outputs
                · constructor
                  · show 2 ≤ target.blocksize.toNat
                    omega
                  · exact (Int.toNat_of_nonneg (by omega)).symm
                · exact ⟨n, c, h, w, rfl, divides.1, divides.2, rfl⟩
        · cases made

/-- What the tool finds before `x_hat`. -/
structure Graph.HasTail (g : Graph K) (xHat : String) (tail : Tail K) : Prop where
  d2s : tail.d2s ∈ g.node ∧ tail.d2s.opType = "DepthToSpace"
  bare : tail.clip = none → xHat ∈ tail.d2s.output
  clip : ∀ clip, tail.clip = some clip → clip ∈ g.node ∧ clip.opType = "Clip" ∧ xHat ∈ clip.output ∧
    ∃ shuffled rest, clip.input = shuffled :: rest ∧ shuffled ∈ tail.d2s.output
  bounds : ∀ clip v, tail.clip = some clip →
    (tail.clipLo = some v → g.constantScalar (clip.input.getD 1 "") = some v) ∧
      (tail.clipHi = some v → g.constantScalar (clip.input.getD 2 "") = some v)

theorem producer_gives {name : String} {n : NodeProto K} (found : g.producer name = some n) :
    n ∈ g.node ∧ name ∈ n.output := by
  refine ⟨List.mem_reverse.mp (List.mem_of_find?_eq_some found), ?_⟩
  exact of_decide_eq_true (List.find?_some found :)

theorem tailOf_spec {xHat : String} {tail : Tail K} (found : g.tailOf xHat = .ok tail) : g.HasTail xHat tail := by
  unfold Graph.tailOf at found
  cases last : g.producer xHat with
  | none =>
    rw [last] at found
    cases found
  | some n =>
    obtain ⟨node, gives⟩ := producer_gives last
    rw [last] at found
    simp only at found
    split at found
    · rename_i clip
      cases input : n.input with
      | nil =>
        rw [input] at found
        cases found
      | cons shuffled rest =>
        rw [input] at found
        simp only at found
        cases before : g.producer shuffled with
        | none =>
          rw [before] at found
          cases found
        | some d2s =>
          obtain ⟨node', gives'⟩ := producer_gives before
          rw [before] at found
          simp only at found
          split at found
          · cases found
          · rename_i op
            cases found
            constructor
            · exact ⟨node', not_not.mp op⟩
            · exact nofun
            · intro clip' same
              cases same
              exact ⟨node, clip, gives, shuffled, rest, input, gives'⟩
            · intro clip' v same
              cases same
              rw [input]
              constructor
              · intro lo
                simp only at lo
                split at lo
                · exact lo
                · cases lo
              · intro hi
                simp only at hi
                split at hi
                · exact hi
                · cases hi
    · split at found
      · rename_i d2s
        cases found
        constructor
        · exact ⟨node, d2s⟩
        · exact fun _ => gives
        · exact fun clip same => nomatch same
        · exact fun clip v same => nomatch same
      · cases found

/-- What is left of a graph whose tail is taken out. -/
structure Curtailed (g g' : Graph K) (xHat : String) (tail : Tail K) (report : ExtractReport K) : Prop where
  node : g'.node = (g.node.filter fun n => n.key ∉ tail.keys).map (NodeProto.rename (swap tail.convOut xHat))
  initializer : g'.initializer = g.initializer
  input : tail.convOut ∉ g.inputNames → g'.input = g.input
  outputs : g'.outputNames = g.outputNames.filter fun name => name = xHat ∨ name ≠ tail.convOut
  live : ∀ n ∈ g.node, n.key ∉ tail.keys → tail.d2sOut ∉ n.input
  blocksize : 2 ≤ report.blocksize ∧ tail.d2s.blocksize = report.blocksize
  inShape : ∀ d ∈ report.inShape, 0 < d
  mode : report.mode = tail.d2s.mode
  clip : report.clipLo = tail.clipLo ∧ report.clipHi = tail.clipHi

theorem replaceOutput_names {xHat convOut : String} {newOut : ValueInfo} {outputs : List ValueInfo}
    (named : newOut.name = xHat) (listed : xHat ∈ outputs.map (·.name)) :
    (replaceOutput xHat convOut newOut outputs).map (·.name) =
      (outputs.map (·.name)).filter fun name => name = xHat ∨ name ≠ convOut := by
  rw [replaceOutput, if_pos listed]
  clear listed
  induction outputs with
  | nil => rfl
  | cons vi outputs ih =>
    rw [List.map_cons, List.filterMap_cons, List.filter_cons]
    by_cases same : vi.name = xHat
    · rw [if_pos same, if_pos (decide_eq_true (.inl same)), List.map_cons, named, same, ih]
    · by_cases conv : vi.name = convOut
      · rw [if_neg same, if_pos conv, if_neg fun keep => ?_, ih]
        exact (of_decide_eq_true keep).elim same fun other => other conv
      · rw [if_neg same, if_neg conv, if_pos (decide_eq_true (.inr conv)), List.map_cons, ih]

theorem curtail_left {xHat : ValueInfo} {tail : Tail K} {inShape : List Nat} (listed : xHat.name ∈ g.outputNames)
    (after : (((g.curtail tail xHat inShape).renameNodes tail.convOut xHat.name).modifyValueInfo tail.convOut
      fun vi => setDims inShape { vi with name := xHat.name }).Like g') :
    g'.node = (g.node.filter fun n => n.key ∉ tail.keys).map (NodeProto.rename (swap tail.convOut xHat.name)) ∧
      g'.initializer = g.initializer ∧ (tail.convOut ∉ g.inputNames → g'.input = g.input) ∧
      g'.outputNames = g.outputNames.filter fun name => name = xHat.name ∨ name ≠ tail.convOut := by
  have names : ((g.curtail tail xHat inShape).renameNodes tail.convOut xHat.name).outputNames =
      g.outputNames.filter fun name => name = xHat.name ∨ name ≠ tail.convOut :=
    replaceOutput_names rfl listed
  unfold Graph.modifyValueInfo at after
  split at after
  · rename_i input
    exact ⟨after.node, after.initializer, fun other => absurd input other, after.outputs.trans names⟩
  · split at after
    · exact ⟨after.node, after.initializer, fun _ => after.input, after.outputs.trans names⟩
    · refine ⟨after.node, after.initializer, fun _ => after.input, after.outputs.trans (Eq.trans ?_ names)⟩
      refine modifyFirst_names fun vi left same => ?_
      have kept : vi.name ∈ ((g.curtail tail xHat inShape).renameNodes tail.convOut xHat.name).outputNames :=
        List.mem_map_of_mem left
      rw [names, same] at kept
      simpa [setDims, eq_comm] using (List.mem_filter.mp kept).2

theorem extractTrailing_spec (lawful : Infer.Lawful infer)
    (made : extractTrailingDepthToSpace infer g = .ok (g', report)) :
    ∃ xHat tail, g.xHat = some xHat ∧ g.tailOf xHat.name = .ok tail ∧ Curtailed g g' xHat.name tail report := by
  unfold extractTrailingDepthToSpace at made
  cases output : g.xHat with
  | none =>
    rw [output] at made
    cases made
  | some xHat =>
    rw [output] at made
    simp only at made
    cases found : g.tailOf xHat.name with
    | error e =>
      rw [found] at made
      cases made
    | ok tail =>
      rw [found] at made
      simp only at made
      split at made
      · cases made
      · rename_i big
        split at made
        · cases made
        · have like := tailShapes_like lawful (g := g) tail.convOut tail.d2sOut
          split at made
          · cases made
          · rename_i g₁ inShape outShape shapes
            rw [shapes] at like
            split at made
            · cases made
            · rename_i pure
              cases made
              refine ⟨xHat, tail, rfl, found, ?_⟩
              have listed : xHat.name ∈ g₁.outputNames := by
                rw [like.outputs]
                exact List.mem_map_of_mem (List.mem_of_find?_eq_some output)
              obtain ⟨node, initializer, input, outputs⟩ := curtail_left listed (inferred_like lawful _)
              constructor
              · exact like.node ▸ node
              · exact initializer.trans like.initializer
              · rw [← like.inputNames, ← like.input]
                exact input
              · exact like.outputs ▸ outputs
              · intro n node kept reads
                refine pure (.inl (List.mem_flatMap.mpr ⟨n, ?_, List.mem_append_left _ reads⟩))
                exact List.mem_filter.mpr ⟨like.node.symm ▸ node, decide_eq_true kept⟩
              · constructor
                · show 2 ≤ tail.d2s.blocksize.toNat
                  omega
                · exact (Int.toNat_of_nonneg (by omega)).symm
              · exact tailShapes_pos shapes
              · rfl
              · exact ⟨rfl, rfl⟩

end Left

end Rkvc.Onnx
