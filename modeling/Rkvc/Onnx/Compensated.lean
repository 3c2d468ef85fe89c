import Mathlib.Data.Rat.Floor
import Rkvc.Mlvc.Decoder
import Rkvc.Onnx.Extract
import Rkvc.Onnx.QpRows

/-!
# What the CPU makes up for

A graph without its head, fed what the head gave, and one without its tail, with the shuffle and
the saturation behind it, compute what the whole graph did, where nothing else had to do with what
is taken out (`extract_spec`).
-/

namespace Rkvc.Onnx
set_option autoImplicit false
open Lib

variable {K : Type}

theorem swap_old (old new : String) : swap old new old = new := if_pos rfl

theorem swap_other {old new x : String} (other : x ≠ old) : swap old new x = x := if_neg other

theorem swap_empty {old new : String} (old_named : old ≠ "") (new_named : new ≠ "") (x : String) :
    swap old new x = "" ↔ x = "" := by
  unfold swap
  split
  · rename_i same
    rw [same]
    exact iff_of_false new_named old_named
  · rfl

/-! ## The head -/

/-- Nothing but the head has to do with the input, and nothing has its key. -/
structure Graph.HeadAlone (g : Graph K) (target : NodeProto K) : Prop where
  key : ∀ n ∈ g.node, n.key = target.key → n = target
  readers : ∀ n ∈ g.node, n ≠ target → target.input.headD "" ∉ n.input
  captures : ∀ n ∈ g.node, target.input.headD "" ∉ n.captures ∧ target.output.headD "" ∉ n.captures
  outputs : target.input.headD "" ∉ g.outputNames

section Head

variable {g g' : Graph K} {target : NodeProto K} {report : ExtractReport K} {x y : NdArray K}
  {feed env env' env₁ : Flow.Env String (NdArray K)}

/-- What a head reads and gives. -/
theorem head_slots (valid : g.Valid) (found : g.head = some target) :
    target ∈ g.node ∧ target.opType = "SpaceToDepth" ∧ ∃ src rest dst, target.input = src :: rest ∧
      src ∈ g.inputNames ∧ src ∉ g.initNames ∧ src ≠ "" ∧ target.output = [dst] ∧ dst ≠ "" := by
  have node := List.mem_of_find?_eq_some found
  obtain ⟨op, ⟨src, rest, input, known, fixed⟩, -⟩ := isHead_iff.mp (List.find?_some found)
  obtain ⟨-, dst, named, output⟩ := valid.plain target node (by rw [op]; decide)
  refine ⟨node, op, src, rest, dst, input, known, fixed, fun empty => ?_, output, named⟩
  exact valid.named.1 (empty ▸ known)

/-- The whole graph beside the one without its head. -/
structure Headless (src dst : String) (x y : NdArray K) (env env' : Flow.Env String (NdArray K)) : Prop where
  agrees : Flow.Agrees (swap dst src) (· ≠ src) env env'
  whole : env src = some x
  fed : env' src = some y

theorem headless_start {src dst : String} (left : Beheaded g g' target report) (input : src ∈ g.inputNames)
    (none : g.start feed dst = none) (fed : feed src = some x) :
    Headless src dst x y (g.start feed) (g'.start (feed.set src y)) := by
  have inputs : g'.inputNames = g.inputNames := by
    rw [Graph.inputNames, left.input]
    exact modifyFirst_names fun vi _ same => same
  constructor
  · intro z other v value
    have apart : z ≠ dst := by
      rintro rfl
      rw [none] at value
      cases value
    rw [swap_other apart, Graph.start, inputs, Flow.Env.set_ne other, Graph.init, left.initializer]
    exact value
  · rw [Graph.start, if_pos input, fed]
    rfl
  · rw [Graph.start, inputs, if_pos input, Flow.Env.set_self]
    rfl

variable [Field K] [LinearOrder K] [FloorRing K] {ext : Flow.Meaning (Op K) (NdArray K)}

/-- What the head does. -/
theorem exec_head (valid : g.Valid) (found : g.head = some target) (source : env (target.input.headD "") = some x)
    (done : target.flow.exec (meaning ext) env = some env₁) :
    ∃ t, spaceToDepth target.blocksize.toNat x.tensor = some t ∧
      env₁ = env.set (target.output.headD "") { x with tensor := t } := by
  obtain ⟨node, op, src, rest, dst, input, -, -, named, output, -⟩ := head_slots valid found
  have known : (⟨target.opType, target.attributes⟩ : Op K).isBuiltin = true := by
    rw [op]
    rfl
  obtain ⟨src', rest', a, more, v, z, input', -, value, -, meant, output', -, rfl⟩ :=
    exec_operand valid node known (by rw [op]; decide) done
  rw [input'] at source
  cases value.symm.trans source
  rw [op, builtin_spaceToDepth] at meant
  obtain ⟨t, reordered, rfl⟩ := Option.map_eq_some_iff.mp meant
  rw [← op] at reordered
  rw [output']
  exact ⟨t, reordered, rfl⟩

/-- A node that is left does the same. -/
theorem Headless.keep (valid : g.Valid) (found : g.head = some target) (alone : g.HeadAlone target) {n : NodeProto K}
    (node : n ∈ g.node) (other : n ≠ target)
    (beside : Headless (target.input.headD "") (target.output.headD "") x y env env')
    (done : n.flow.exec (meaning ext) env = some env₁) :
    ∃ env₁', (n.rewire (swap (target.output.headD "") (target.input.headD ""))).flow.exec (meaning ext) env' =
      some env₁' ∧ Headless (target.input.headD "") (target.output.headD "") x y env₁ env₁' := by
  obtain ⟨node', -, src, rest, dst, input, known, -, named, output, named'⟩ := head_slots valid found
  have readers := alone.readers n node other
  have captures := alone.captures n node
  rw [input, output] at beside ⊢
  rw [input] at readers
  rw [input, output] at captures
  simp only [List.headD_cons] at beside readers captures ⊢
  have gives {z : String} (writes : some z ∈ n.flow.writes) : z ≠ dst ∧ z ≠ src := by
    obtain ⟨some_, gives⟩ := mem_writes.mp writes
    constructor
    · rintro rfl
      exact other (valid.writer node node' some_ gives (by rw [output]; exact List.mem_singleton_self _))
    · rintro rfl
      exact (valid.apart n node z gives some_).1 known
  have reads : ∀ z, some z ∈ n.flow.reads → z ≠ src := by
    rintro z reads rfl
    rcases mem_reads.mp reads with ⟨-, reads⟩ | captured
    · exact readers reads
    · exact captures.1 captured
  have apart : ∀ z, some z ∈ n.flow.writes → ∀ u, u ≠ src → swap dst src u = swap dst src z → u = z := by
    intro z writes u source same
    obtain ⟨fresh, other⟩ := gives writes
    rw [swap_other fresh] at same
    by_cases shuffled : u = dst
    · rw [shuffled, swap_old] at same
      exact absurd same.symm other
    · rwa [swap_other shuffled] at same
  have renamed : (n.rewire (swap dst src)).flow = n.flow.rename (swap dst src) := by
    rw [← rename_flow (swap_empty named' named) fun z captured => swap_other fun same => captures.2 (same ▸ captured)]
    have outputs : n.output.map (swap dst src) = n.output := by
      refine (List.map_congr_left fun z listed => ?_).trans (List.map_id _)
      refine swap_other fun same => ?_
      exact (gives (mem_writes.mpr ⟨same ▸ named', listed⟩)).1 same
    rw [NodeProto.rename, outputs]
    rfl
  obtain ⟨env₁', done', agrees⟩ := Flow.exec_rename beside.agrees reads apart done
  rw [← renamed] at done'
  refine ⟨env₁', done', agrees, ?_, ?_⟩
  · rw [Flow.exec_other done fun writes => (gives writes).2 rfl]
    exact beside.whole
  · rw [Flow.exec_other done' fun writes => ?_]
    · exact beside.fed
    · have own : some src ∈ n.flow.writes := writes
      exact (gives own).2 rfl

/-- **Without its head** a graph gives the same of what the head gave. -/
theorem head_results (valid : g.Valid) (found : g.head = some target) (left : Beheaded g g' target report)
    (alone : g.HeadAlone target) (fed : feed (target.input.headD "") = some x) {outs : List (String × NdArray K)}
    (results : g.results ext feed = some outs) :
    ∃ t, spaceToDepth report.blocksize x.tensor = some t ∧
      g'.results ext (feed.set (target.input.headD "") { x with tensor := t }) =
        some (outs.map fun o => (swap (target.output.headD "") (target.input.headD "") o.1, o.2)) := by
  obtain ⟨env, run, outputs⟩ := Option.bind_eq_some_iff.mp results
  obtain ⟨node, -, src, rest, dst, input, known, -, named, output, named'⟩ := head_slots valid found
  have source : target.input.headD "" = src := by rw [input]; rfl
  have shuffled : target.output.headD "" = dst := by rw [output]; rfl
  have start : g.start feed src = some x := by
    rw [Graph.start, if_pos known, ← source, fed]
    rfl
  have whole : env src = some x := by
    rw [Flow.run_other run fun n listed writes => ?_]
    · exact start
    · obtain ⟨n', node', rfl⟩ := List.mem_map.mp listed
      obtain ⟨-, gives⟩ := mem_writes.mp writes
      exact (valid.apart n' node' src gives named).1 known
  obtain ⟨t, reordered, -⟩ := exec_head valid found (source ▸ whole) (eval_fixed valid run node)
  have size : target.blocksize.toNat = report.blocksize := by
    rw [left.blocksize.2]
    rfl
  refine ⟨t, size ▸ reordered, ?_⟩
  have kept : ∀ n ∈ g.node, decide (n.key ≠ target.key) = true → ∀ env env' env₁,
      Headless (target.input.headD "") (target.output.headD "") x { x with tensor := t } env env' →
        n.flow.exec (meaning ext) env = some env₁ →
          ∃ env₁', (n.rewire (swap (target.output.headD "") (target.input.headD ""))).flow.exec (meaning ext) env' =
            some env₁' ∧ Headless (target.input.headD "") (target.output.headD "") x { x with tensor := t } env₁ env₁' := by
    intro n listed key env env' env₁ beside done
    exact beside.keep valid found alone listed (fun same => of_decide_eq_true key (same ▸ rfl)) done
  have dropped : ∀ n ∈ g.node, decide (n.key ≠ target.key) = false → ∀ env env' env₁,
      Headless (target.input.headD "") (target.output.headD "") x { x with tensor := t } env env' →
        n.flow.exec (meaning ext) env = some env₁ →
          Headless (target.input.headD "") (target.output.headD "") x { x with tensor := t } env₁ env' := by
    intro n listed key env env' env₁ beside done
    rw [alone.key n listed (not_not.mp (of_decide_eq_false key))] at done
    obtain ⟨t', reordered', rfl⟩ := exec_head valid found beside.whole done
    cases reordered.symm.trans reordered'
    refine ⟨?_, ?_, beside.fed⟩
    · intro z other v value
      by_cases same : z = target.output.headD ""
      · rw [same, Flow.Env.set_self] at value
        rw [same, swap_old, ← value]
        exact beside.fed
      · rw [Flow.Env.set_ne same] at value
        exact beside.agrees z other v value
    · rw [Flow.Env.set_ne fun same => ?_]
      · exact beside.whole
      · rw [source, shuffled] at same
        exact (valid.apart target node dst (by rw [output]; exact List.mem_singleton_self _) named').1 (same ▸ known)
  have none : g.start feed (target.output.headD "") = none := by
    rw [shuffled]
    exact start_none valid node (by rw [output]; exact List.mem_singleton_self _) named'
  have beside := headless_start (y := { x with tensor := t }) left (source.symm ▸ known) none fed
  obtain ⟨env', run', beside'⟩ := Flow.run_kept kept dropped beside run
  refine Option.bind_eq_some_iff.mpr ⟨env', ?_, ?_⟩
  · rw [Graph.eval, left.node, List.map_map]
    exact run'
  · rw [left.outputs]
    refine mapM_rename (f := fun _ v => v) (fun name listed v value => ?_) outputs
    exact beside'.agrees name (fun same => alone.outputs (same ▸ listed)) v value

end Head

/-! ## Samples -/

section Samples

variable [Field K] [LinearOrder K]

/-- What the conversion to NV12 does to a sample. -/
def saturate (v : Val K) : Val K := clipVal (some (.fin 0)) (some (.fin 1)) v

omit [Field K] [LinearOrder K] in
/-- The shuffle of a picture's channels. -/
theorem depthToSpace_dcr {t r : Tensor (Val K)} {bs H W : Nat} (positive : 0 < bs)
    (shape : t.shape = [1, 3 * bs * bs, H, W]) (shuffled : depthToSpace bs false t = some r) :
    r = Tensor.ofFn [1, 3, H * bs, W * bs] fun
      | [b, k, y, x] => t.get [b, (y % bs * bs + x % bs) * 3 + k, y / bs, x / bs]
      | _ => default := by
  have channels : 3 * bs * bs / (bs * bs) = 3 := by
    rw [Nat.mul_assoc, Nat.mul_div_cancel _ (Nat.mul_pos positive positive)]
  have divides : 3 * bs * bs % (bs * bs) = 0 := by
    rw [Nat.mul_assoc, Nat.mul_mod_left]
  unfold depthToSpace at shuffled
  rw [shape] at shuffled
  simp only [positive, divides, channels, and_self, if_true, Option.some.injEq] at shuffled
  exact shuffled.symm

omit [LinearOrder K] in
/-- **The CPU's shuffle** is that of the operator. -/
theorem nchwD2s_shuffles {t r : Tensor (Val K)} {bs H W : Nat} {hs : List UInt16} (positive : 0 < bs)
    (shape : t.shape = [1, 3 * bs * bs, H, W]) (shuffled : depthToSpace bs false t = some r)
    (halves : hs.map halfVal = t.data) : (Mlvc.Pixel.nchwD2sDcrF16 hs 3 H W bs).map halfVal = r.data := by
  rw [depthToSpace_dcr positive shape shuffled]
  have read {c y x : Nat} (hc : c < 3) (hy : y < H * bs) (hx : x < W * bs) :
      halfVal (hs.getD ((((y % bs * bs + x % bs) * 3 + c) * H + y / bs) * W + x / bs) 0) =
        t.get [0, (y % bs * bs + x % bs) * 3 + c, y / bs, x / bs] := by
    have cell : y % bs * bs + x % bs < bs * bs := by
      have row : (y % bs + 1) * bs ≤ bs * bs := Nat.mul_le_mul_right _ (Nat.mod_lt y positive)
      have column := Nat.mod_lt x positive
      rw [Nat.succ_mul] at row
      omega
    have inside : Inside t.shape [0, (y % bs * bs + x % bs) * 3 + c, y / bs, x / bs] := by
      rw [shape]
      refine ⟨Nat.one_pos, ?_, Nat.div_lt_of_lt_mul ?_, Nat.div_lt_of_lt_mul ?_, trivial⟩
      · rw [Nat.mul_assoc]
        omega
      · rwa [Nat.mul_comm]
      · rwa [Nat.mul_comm]
    have position : flat t.shape [0, (y % bs * bs + x % bs) * 3 + c, y / bs, x / bs] =
        (((y % bs * bs + x % bs) * 3 + c) * H + y / bs) * W + x / bs := by
      rw [shape]
      simp only [flat_cons, flat_nil, List.prod_cons, List.prod_nil]
      ring
    have value := Tensor.get_eq inside
    rw [position, ← halves, List.getElem?_map] at value
    obtain ⟨h, there, same⟩ := Option.map_eq_some_iff.mp value
    rw [List.getD_eq_getElem?_getD, there, Option.getD_some, same]
  simp only [Mlvc.Pixel.nchwD2sDcrF16, Tensor.ofFn, indices, List.range_one, List.flatMap_singleton, List.map_flatMap,
    List.map_map]
  refine List.flatMap_congr fun c hc => List.flatMap_congr fun y hy => ?_
  rw [List.map_eq_flatMap]
  refine List.flatMap_congr fun x hx => ?_
  exact congrArg (fun v => [v]) (read (List.mem_range.mp hc) (List.mem_range.mp hy) (List.mem_range.mp hx))

/-- A finite half, in multiples of `2 ^ -24`. -/
def signedHalf (h : UInt16) : Int :=
  if h &&& 0x8000 ≠ 0 then -(Mlvc.Pixel.halfMagnitude h : Int) else Mlvc.Pixel.halfMagnitude h

omit [LinearOrder K] in
theorem halfVal_finite {h : UInt16} (finite : Mlvc.Pixel.fp16Finite h = true) :
    (halfVal h : Val K) = .fin ((signedHalf h : K) / 2 ^ 24) := by
  have scale : ((2 ^ 24 : Nat) : K) = 2 ^ 24 := Nat.cast_pow 2 24
  rw [halfVal, if_pos finite, signedHalf, scale]
  split
  · rw [Int.cast_neg, Int.cast_natCast, neg_div]
  · rw [Int.cast_natCast]

/-- Between 0 and 1 a rounding of 255ths is between 0 and 255. -/
theorem shiftRne_255 (n : Nat) : (n ≤ 2 ^ 24 → Mlvc.Pixel.shiftRne (n * 255) 24 ≤ 255) ∧
    (2 ^ 24 ≤ n → 255 ≤ Mlvc.Pixel.shiftRne (n * 255) 24) := by
  simp only [Mlvc.Pixel.shiftRne, Nat.shiftRight_eq_div_pow]
  constructor
  · intro small
    split <;> omega
  · intro large
    split <;> omega

/-- The level of a sample, in multiples of `2 ^ -24`. -/
def level (n : Int) : Nat := (Min.min (Max.max n 0) (2 ^ 24)).toNat

/-- A byte of the picture is a function of the sample's saturation. -/
theorem byteOf_eq (h : UInt16) :
    Mlvc.Pixel.byteOf h = UInt8.ofNat (Mlvc.Pixel.shiftRne (level (signedHalf h) * 255) 24) := by
  unfold Mlvc.Pixel.byteOf Mlvc.Pixel.lrintHalf signedHalf
  generalize Mlvc.Pixel.halfMagnitude h = n
  refine congrArg UInt8.ofNat ?_
  split
  · have none : level (-(n : Int)) = 0 := by
      rw [level]
      omega
    have zero : Mlvc.Pixel.shiftRne (0 * 255) 24 = 0 := by decide
    rw [none, zero]
    dsimp only
    split <;> omega
  · obtain ⟨below, above⟩ := shiftRne_255 n
    by_cases small : n ≤ 2 ^ 24
    · have same : level n = n := by
        rw [level]
        omega
      have bound := below small
      rw [same]
      dsimp only
      split <;> omega
    · have full : level n = 2 ^ 24 := by
        rw [level]
        omega
      have bound := above (by omega)
      have one : Mlvc.Pixel.shiftRne (2 ^ 24 * 255) 24 = 255 := by decide
      rw [full, one]
      dsimp only
      split <;> omega

variable [IsStrictOrderedRing K]

theorem byteOf_saturate {h h' : UInt16} (finite : Mlvc.Pixel.fp16Finite h = true)
    (finite' : Mlvc.Pixel.fp16Finite h' = true) (same : saturate (halfVal h : Val K) = saturate (halfVal h')) :
    Mlvc.Pixel.byteOf h = Mlvc.Pixel.byteOf h' := by
  have scaled (h : UInt16) : Min.min (Max.max ((signedHalf h : K) / 2 ^ 24) 0) 1 =
      (level (signedHalf h) : K) / 2 ^ 24 := by
    have cast : (level (signedHalf h) : K) = ((Min.min (Max.max (signedHalf h) 0) (2 ^ 24) : Int) : K) := by
      rw [← Int.cast_natCast, level, Int.toNat_of_nonneg (by omega)]
    have positive : (0 : K) < 2 ^ 24 := by positivity
    rw [cast, Int.cast_min, Int.cast_max, ← min_div_div_right positive.le, ← max_div_div_right positive.le]
    norm_num
  rw [halfVal_finite finite, halfVal_finite finite'] at same
  simp only [saturate, clipVal, Val.max, Val.min, Val.fin.injEq] at same
  rw [scaled, scaled, div_left_inj' (by positivity), Nat.cast_inj] at same
  rw [byteOf_eq, byteOf_eq, same]

/-- Two pictures whose samples saturate alike. -/
theorem nv12_saturate {xs ys : List UInt16} {W H : Nat} (finite : Mlvc.Pixel.allFinite xs = true)
    (finite' : Mlvc.Pixel.allFinite ys = true)
    (same : xs.map (fun h => saturate (halfVal h : Val K)) = ys.map fun h => saturate (halfVal h)) :
    Mlvc.Pixel.nchwYuvFp16ToNv12 xs W H = Mlvc.Pixel.nchwYuvFp16ToNv12 ys W H := by
  have length : xs.length = ys.length := by
    have lengths := congrArg List.length same
    rwa [List.length_map, List.length_map] at lengths
  have bytes (i : Nat) : Mlvc.Pixel.byteOf (xs.getD i 0) = Mlvc.Pixel.byteOf (ys.getD i 0) := by
    by_cases inside : i < xs.length
    · have inside' : i < ys.length := length ▸ inside
      rw [List.getD_eq_getElem?_getD, List.getD_eq_getElem?_getD, List.getElem?_eq_getElem inside,
        List.getElem?_eq_getElem inside', Option.getD_some, Option.getD_some]
      refine byteOf_saturate (K := K) ?_ ?_ ?_
      · exact List.all_eq_true.mp finite _ (List.getElem_mem inside)
      · exact List.all_eq_true.mp finite' _ (List.getElem_mem inside')
      · have one := congrArg (·[i]?) same
        simpa [inside, inside'] using one
    · rw [List.getD_eq_getElem?_getD, List.getD_eq_getElem?_getD, List.getElem?_eq_none (by omega),
        List.getElem?_eq_none (by omega)]
  simp only [Mlvc.Pixel.nchwYuvFp16ToNv12, bytes]

end Samples

/-! ## The tail -/

/-- Nothing but the tail has to do with what it reads and gives, and it is the shuffle and the
saturation that the CPU has. -/
structure Graph.TailAlone [Zero K] [One K] (g : Graph K) (xHat : String) (tail : Tail K) : Prop where
  keys : ∀ n ∈ g.node, n.key ∈ tail.keys → n = tail.d2s ∨ tail.clip = some n
  given : ∃ n ∈ g.node, n.key ∉ tail.keys ∧ tail.convOut ∈ n.output
  readers : ∀ n ∈ g.node, n.key ∉ tail.keys → xHat ∉ n.input
  captures : ∀ n ∈ g.node, tail.convOut ∉ n.captures ∧ tail.d2sOut ∉ n.captures ∧ xHat ∉ n.captures
  outputs : tail.convOut ∉ g.outputNames ∧ (tail.d2sOut ∈ g.outputNames → tail.d2sOut = xHat)
  mode : tail.d2s.mode ≠ "CRD"
  bounds : ∀ clip, tail.clip = some clip → tail.clipLo = some (.fin 0) ∧ tail.clipHi = some (.fin 1) ∧
    clip.input.getD 1 "" ∉ g.inputNames ∧ clip.input.getD 2 "" ∉ g.inputNames

section Tail

variable {g g' : Graph K} {xHat : String} {tail : Tail K} {report : ExtractReport K}
  {feed env env' env₁ : Flow.Env String (NdArray K)}

/-- What the nodes of a tail give. -/
theorem tail_slots (valid : g.Valid) (has : g.HasTail xHat tail) :
    tail.d2s.output = [tail.d2sOut] ∧ tail.d2sOut ≠ "" ∧ (tail.clip = none → tail.d2sOut = xHat) ∧
      ∀ clip, tail.clip = some clip → clip ∈ g.node ∧ clip.opType = "Clip" ∧ clip.output = [xHat] ∧
        clip.input.headD "" = tail.d2sOut ∧ clip.input ≠ [] := by
  obtain ⟨node, op⟩ := has.d2s
  obtain ⟨-, y, named, output⟩ := valid.plain _ node (by rw [op]; decide)
  have gives : tail.d2sOut = y := by
    rw [Tail.d2sOut, output]
    rfl
  refine ⟨gives.symm ▸ output, gives.symm ▸ named, fun bare => ?_, fun clip clipped => ?_⟩
  · have listed := has.bare bare
    rw [output] at listed
    rw [gives, List.mem_singleton.mp listed]
  · obtain ⟨node', op', listed, shuffled, rest, input, listed'⟩ := has.clip clip clipped
    obtain ⟨-, z, -, output'⟩ := valid.plain _ node' (by rw [op']; decide)
    rw [output'] at listed
    rw [output] at listed'
    refine ⟨node', op', by rw [output', List.mem_singleton.mp listed], ?_, by rw [input]; exact List.cons_ne_nil _ _⟩
    rw [input, List.headD_cons, List.mem_singleton.mp listed', gives]

/-- A tail's nodes have its keys. -/
theorem tail_keys : tail.d2s.key ∈ tail.keys ∧ ∀ clip, tail.clip = some clip → clip.key ∈ tail.keys := by
  refine ⟨List.mem_cons_self, fun clip clipped => List.mem_cons_of_mem _ ?_⟩
  rw [clipped]
  exact List.mem_singleton_self _

/-- The mode that the report has is the operator's. -/
theorem mode_attr {n : NodeProto K} (single : (n.attributes.map (·.name)).Nodup) (mode : n.mode ≠ "CRD") :
    ((⟨n.opType, n.attributes⟩ : Op K).attr "mode").map Attribute.s ≠ some "CRD" := by
  intro crd
  obtain ⟨a, found, text⟩ := Option.map_eq_some_iff.mp crd
  have listed := List.mem_of_find?_eq_some found
  have named : a.name = "mode" := by simpa using List.find?_some found
  have kept : a ∈ n.attributes.filter fun a => a.name = "mode" ∧ a.s ≠ "" :=
    List.mem_filter.mpr ⟨listed, decide_eq_true ⟨named, by rw [text]; decide⟩⟩
  obtain ⟨b, last⟩ := Option.isSome_iff_exists.mp (List.getLast?_isSome.mpr (List.ne_nil_of_mem kept))
  have other := List.mem_filter.mp (List.mem_of_getLast? last)
  have same : a = b := by
    refine List.inj_on_of_nodup_map single listed other.1 ?_
    rw [named, (of_decide_eq_true other.2).1]
  refine mode ?_
  rw [NodeProto.mode, last, ← same, Option.map_some, text]
  rfl

/-- The graph beside the one without its tail. -/
abbrev Tailless (xHat : String) (tail : Tail K) (env env' : Flow.Env String (NdArray K)) : Prop :=
  Flow.Agrees (swap tail.convOut xHat) (fun x => x ≠ xHat ∧ x ≠ tail.d2sOut) env env'

/-- The names around a tail. -/
structure TailNames (g : Graph K) (xHat : String) (tail : Tail K) : Prop where
  hat : xHat ≠ ""
  conv : tail.convOut ≠ ""
  apart : tail.convOut ≠ xHat ∧ tail.convOut ≠ tail.d2sOut
  /-- Only the tail gives what is taken out. -/
  writer : ∀ n ∈ g.node, n.key ∉ tail.keys → xHat ∉ n.output ∧ tail.d2sOut ∉ n.output

variable [Field K] [LinearOrder K] [FloorRing K] {ext : Flow.Meaning (Op K) (NdArray K)}

/-- A node that is left does the same under the other name. -/
theorem tailless_keep (left : Curtailed g g' xHat tail report) (alone : g.TailAlone xHat tail)
    (names : TailNames g xHat tail) {n : NodeProto K} (node : n ∈ g.node) (key : n.key ∉ tail.keys)
    (beside : Tailless xHat tail env env') (done : n.flow.exec (meaning ext) env = some env₁) :
    ∃ env₁', (n.rename (swap tail.convOut xHat)).flow.exec (meaning ext) env' = some env₁' ∧
      Tailless xHat tail env₁ env₁' := by
  obtain ⟨conv, shuffled, hat⟩ := alone.captures n node
  have reads : ∀ z, some z ∈ n.flow.reads → z ≠ xHat ∧ z ≠ tail.d2sOut := by
    intro z reads
    rcases mem_reads.mp reads with ⟨-, reads⟩ | captured
    · constructor
      · rintro rfl
        exact alone.readers n node key reads
      · rintro rfl
        exact left.live n node key reads
    · constructor
      · rintro rfl
        exact hat captured
      · rintro rfl
        exact shuffled captured
  have apart : ∀ z, some z ∈ n.flow.writes → ∀ u, (u ≠ xHat ∧ u ≠ tail.d2sOut) →
      swap tail.convOut xHat u = swap tail.convOut xHat z → u = z := by
    intro z writes u known same
    obtain ⟨-, gives⟩ := mem_writes.mp writes
    have other : z ≠ xHat := by
      rintro rfl
      exact (names.writer n node key).1 gives
    unfold swap at same
    split at same <;> split at same
    · rename_i one two
      rw [one, two]
    · exact absurd same.symm other
    · exact absurd same known.1
    · exact same
  rw [rename_flow (swap_empty names.conv names.hat) fun z captured => swap_other fun same => conv (same ▸ captured)]
  exact Flow.exec_rename beside reads apart done

omit [LinearOrder K] [FloorRing K] in
theorem tail_names (valid : g.Valid) (has : g.HasTail xHat tail) (alone : g.TailAlone xHat tail)
    (output : xHat ∈ g.outputNames) (conv : tail.convOut ≠ "") : TailNames g xHat tail := by
  obtain ⟨gives, named, bare, clipped⟩ := tail_slots valid has
  have hat : xHat ≠ "" := by
    rintro rfl
    exact valid.named.2.2 output
  have mine : tail.d2sOut ∈ tail.d2s.output := by
    rw [gives]
    exact List.mem_singleton_self _
  have writer : ∀ n ∈ g.node, n.key ∉ tail.keys → xHat ∉ n.output ∧ tail.d2sOut ∉ n.output := by
    intro n node key
    have shuffled : tail.d2sOut ∉ n.output := by
      intro writes
      rw [valid.writer node has.d2s.1 named writes mine] at key
      exact key tail_keys.1
    refine ⟨fun writes => ?_, shuffled⟩
    cases clip : tail.clip with
    | none => exact shuffled (bare clip ▸ writes)
    | some c =>
      obtain ⟨node', -, output', -⟩ := clipped c clip
      rw [valid.writer node node' hat writes (by rw [output']; exact List.mem_singleton_self _)] at key
      exact key (tail_keys.2 c clip)
  obtain ⟨n, node, key, given⟩ := alone.given
  refine ⟨hat, conv, ⟨fun same => ?_, fun same => ?_⟩, writer⟩
  · exact (writer n node key).1 (same ▸ given)
  · exact (writer n node key).2 (same ▸ given)

/-- What the shuffle of a tail gives. -/
theorem d2s_value (valid : g.Valid) (has : g.HasTail xHat tail) (alone : g.TailAlone xHat tail)
    (run : g.eval ext feed = some env) : tail.convOut ≠ "" ∧ ∃ new t, env tail.convOut = some new ∧
      depthToSpace tail.d2s.blocksize.toNat false new.tensor = some t ∧
      env tail.d2sOut = some { new with tensor := t } := by
  obtain ⟨node, op⟩ := has.d2s
  have known : (⟨tail.d2s.opType, tail.d2s.attributes⟩ : Op K).isBuiltin = true := by
    rw [op]
    rfl
  obtain ⟨src, rest, new, more, v, y, input, named, value, -, meant, output, -, fixed⟩ :=
    exec_operand valid node known (by rw [op]; decide) (eval_fixed valid run node)
  have conv : tail.convOut = src := by
    rw [Tail.convOut, input]
    rfl
  have shuffled : tail.d2sOut = y := by
    rw [Tail.d2sOut, output]
    rfl
  have crd := mode_attr (valid.attributes _ node) alone.mode
  rw [op] at crd
  rw [op, builtin_depthToSpace, decide_eq_false crd] at meant
  obtain ⟨t, reordered, rfl⟩ := Option.map_eq_some_iff.mp meant
  rw [← op] at reordered
  refine ⟨conv ▸ named, new, t, conv ▸ value, reordered, ?_⟩
  rw [fixed, shuffled, Flow.Env.set_self]

omit [Field K] [FloorRing K] in
/-- What a clip between two bounds gives. -/
theorem clip_bounds {a lo hi v : NdArray K} (gives : clip a (some lo) (some hi) = some v) :
    v.tensor = a.tensor.map (clipVal lo.tensor.data.head? hi.tensor.data.head?) := by
  unfold clip at gives
  split at gives
  · obtain ⟨l, below, rest⟩ := Option.bind_eq_some_iff.mp gives
    obtain ⟨h, above, rfl⟩ := Option.map_eq_some_iff.mp rest
    simp only [clipBound] at below above
    split at below
    · split at above
      · cases below
        cases above
        rfl
      · cases above
    · cases below
  · cases gives

/-- A constant operand. -/
theorem constant_operand (valid : g.Valid) (run : g.eval ext feed = some env) {names : List String} {i : Nat} {c : Val K}
    {more : List (Option (NdArray K))} (known : g.constantScalar (names.getD i "") = some c)
    (fixed : names.getD i "" ∉ g.inputNames) (read : env.readAll (names.map slot) = some more) :
    ∃ arr, (more[i]?).join = some arr ∧ arr.tensor.data = [c] := by
  obtain ⟨arr, held, one⟩ := Option.bind_eq_some_iff.mp known
  have named := constant_named valid held
  have data : arr.tensor.data = [c] := by
    unfold NdArray.scalar at one
    split at one
    · rename_i v same
      cases one
      exact same
    · cases one
  refine ⟨arr, ?_, data⟩
  have steady := steady_eval valid run
  clear one known
  induction names generalizing i more with
  | nil => exact absurd rfl named
  | cons name names ih =>
    rw [List.map_cons] at read
    by_cases left : name = ""
    · rw [slot, if_pos left] at read
      obtain ⟨more', later, rfl⟩ := Option.map_eq_some_iff.mp read
      cases i with
      | zero => exact absurd left named
      | succ i =>
        rw [List.getD_cons_succ] at fixed held named
        have rest := ih fixed later held named
        exact rest
    · rw [slot, if_neg left] at read
      obtain ⟨v, value, behind⟩ := Option.bind_eq_some_iff.mp read
      obtain ⟨more', later, rfl⟩ := Option.map_eq_some_iff.mp behind
      cases i with
      | zero =>
        rw [steady name arr v held fixed value]
        rfl
      | succ i =>
        rw [List.getD_cons_succ] at fixed held named
        have rest := ih fixed later held named
        exact rest

/-- What the whole tail gives. -/
theorem tail_values (valid : g.Valid) (has : g.HasTail xHat tail) (alone : g.TailAlone xHat tail)
    (run : g.eval ext feed = some env) : tail.convOut ≠ "" ∧ ∃ new t old, env tail.convOut = some new ∧
      depthToSpace tail.d2s.blocksize.toNat false new.tensor = some t ∧ env xHat = some old ∧
      old.tensor = if tail.clip.isSome then t.map saturate else t := by
  obtain ⟨-, -, bare, clipped⟩ := tail_slots valid has
  obtain ⟨named, new, t, value, reordered, shuffled⟩ := d2s_value valid has alone run
  refine ⟨named, new, t, ?_⟩
  cases clip : tail.clip with
  | none =>
    rw [bare clip] at shuffled
    exact ⟨_, value, reordered, shuffled, rfl⟩
  | some c =>
    obtain ⟨node, op, output, input, -⟩ := clipped c clip
    have known : (⟨c.opType, c.attributes⟩ : Op K).isBuiltin = true := by
      rw [op]
      rfl
    obtain ⟨src, rest, a, more, v, y, input', -, value', read, meant, output', -, fixed⟩ :=
      exec_operand valid node known (by rw [op]; decide) (eval_fixed valid run node)
    obtain ⟨lo, hi, lo_fixed, hi_fixed⟩ := alone.bounds c clip
    obtain ⟨lo_known, -⟩ := has.bounds c (.fin 0) clip
    obtain ⟨-, hi_known⟩ := has.bounds c (.fin 1) clip
    have lo_known := lo_known lo
    have hi_known := hi_known hi
    rw [input'] at lo_fixed hi_fixed lo_known hi_known input
    obtain rfl : src = tail.d2sOut := input
    cases value'.symm.trans shuffled
    obtain ⟨lo', lo_arg, lo_data⟩ := constant_operand (i := 0) valid run lo_known lo_fixed read
    obtain ⟨hi', hi_arg, hi_data⟩ := constant_operand (i := 1) valid run hi_known hi_fixed read
    rw [op, builtin_clip, lo_arg, hi_arg] at meant
    have clamped := clip_bounds meant
    rw [lo_data, hi_data] at clamped
    refine ⟨v, value, reordered, ?_, clamped⟩
    rw [fixed, List.head_eq_of_cons_eq (output.symm.trans output'), Flow.Env.set_self]

omit [Field K] [LinearOrder K] [FloorRing K] in
theorem given_start [Zero K] [One K] (feed : Flow.Env String (NdArray K)) (valid : g.Valid)
    (alone : g.TailAlone xHat tail) (conv : tail.convOut ≠ "") :
    tail.convOut ∉ g.inputNames ∧ g.start feed tail.convOut = none := by
  obtain ⟨n, node, -, gives⟩ := alone.given
  exact ⟨(valid.apart n node _ gives conv).1, start_none valid node gives conv⟩

omit [LinearOrder K] [FloorRing K] in
theorem tailless_start (valid : g.Valid) (left : Curtailed g g' xHat tail report) (alone : g.TailAlone xHat tail)
    (conv : tail.convOut ≠ "") : Tailless xHat tail (g.start feed) (g'.start feed) := by
  intro z _ v value
  obtain ⟨other, none⟩ := given_start feed valid alone conv
  have apart : z ≠ tail.convOut := by
    rintro rfl
    rw [none] at value
    cases value
  rw [swap_other apart, Graph.start, Graph.inputNames, left.input other, Graph.init, left.initializer]
  exact value

/-- **Without its tail** a graph gives what the tail took for the picture, and its other outputs. -/
theorem tail_results (valid : g.Valid) (has : g.HasTail xHat tail) (left : Curtailed g g' xHat tail report)
    (alone : g.TailAlone xHat tail) (output : xHat ∈ g.outputNames) {outs : List (String × NdArray K)}
    (results : g.results ext feed = some outs) :
    ∃ new t old, depthToSpace report.blocksize false new.tensor = some t ∧
      (old.tensor = if tail.clip.isSome then t.map saturate else t) ∧ (xHat, old) ∈ outs ∧
      g'.results ext feed = some (outs.map fun o => (o.1, if o.1 = xHat then new else o.2)) := by
  obtain ⟨env, run, outputs⟩ := Option.bind_eq_some_iff.mp results
  obtain ⟨conv, new, t, old, value, reordered, hat, eq⟩ := tail_values valid has alone run
  have names := tail_names valid has alone output conv
  have size : tail.d2s.blocksize.toNat = report.blocksize := by
    rw [left.blocksize.2]
    rfl
  refine ⟨new, t, old, size ▸ reordered, eq, mem_mapM outputs output hat, ?_⟩
  have kept : ∀ n ∈ g.node, decide (n.key ∉ tail.keys) = true → ∀ env env' env₁, Tailless xHat tail env env' →
      n.flow.exec (meaning ext) env = some env₁ →
        ∃ env₁', (n.rename (swap tail.convOut xHat)).flow.exec (meaning ext) env' = some env₁' ∧
          Tailless xHat tail env₁ env₁' := by
    intro n node key env env' env₁ beside done
    exact tailless_keep left alone names node (of_decide_eq_true key) beside done
  have dropped : ∀ n ∈ g.node, decide (n.key ∉ tail.keys) = false → ∀ env env' env₁, Tailless xHat tail env env' →
      n.flow.exec (meaning ext) env = some env₁ → Tailless xHat tail env₁ env' := by
    intro n node key env env' env₁ beside done z known v value
    refine beside z known v ?_
    rw [← value]
    refine (Flow.exec_other done fun writes => ?_).symm
    obtain ⟨-, gives⟩ := mem_writes.mp writes
    obtain ⟨shuffled, -, -, clipped⟩ := tail_slots valid has
    rcases alone.keys n node (not_not.mp (of_decide_eq_false key)) with rfl | clip
    · rw [shuffled] at gives
      exact known.2 (List.mem_singleton.mp gives)
    · rw [(clipped n clip).2.2.1] at gives
      exact known.1 (List.mem_singleton.mp gives)
  obtain ⟨env', run', beside⟩ := Flow.run_kept kept dropped (tailless_start valid left alone conv) run
  refine Option.bind_eq_some_iff.mpr ⟨env', ?_, ?_⟩
  · rw [Graph.eval, left.node, List.map_map]
    exact run'
  · have all : g'.outputNames = g.outputNames.map id := by
      rw [left.outputs, List.map_id, List.filter_eq_self]
      intro name listed
      exact decide_eq_true (.inr fun same => alone.outputs.1 (same ▸ listed))
    rw [all]
    refine mapM_rename (f := fun name v => if name = xHat then new else v) (fun name listed v value' => ?_) outputs
    by_cases same : name = xHat
    · rw [if_pos same, same]
      have renamed := beside tail.convOut names.apart new value
      rwa [swap_old] at renamed
    · rw [if_neg same]
      have stays := beside name ⟨same, fun other => ?_⟩ v value'
      · have apart : name ≠ tail.convOut := by
          rintro rfl
          exact alone.outputs.1 listed
        rwa [swap_other apart] at stays
      · rw [other] at listed same
        exact same (alone.outputs.2 listed)

end Tail

/-! ## What the decoder makes of it -/

section Decoder

theorem blockSize_square {bs : Nat} (big : 2 ≤ bs) : Mlvc.blockSize (bs * bs) = bs := by
  have listed : bs ∈ List.range' 2 (bs * bs) := by
    have : bs ≤ bs * bs := Nat.le_mul_self bs
    rw [List.mem_range'_1]
    omega
  have found : ((List.range' 2 (bs * bs)).find? fun b => b * b = bs * bs).isSome :=
    List.find?_isSome.mpr ⟨bs, listed, decide_eq_true rfl⟩
  obtain ⟨b, first⟩ := Option.isSome_iff_exists.mp found
  have same : b = bs := Nat.mul_self_inj.mp (by simpa using List.find?_some first)
  rw [Mlvc.blockSize, first, same]
  rfl

/-- The decoder takes the block size from the channels. -/
theorem resolveShape_tail {xd : List UInt32} {bs H W : Nat} (big : 2 ≤ bs) (positive : 0 < H ∧ 0 < W)
    (dims : xd.map UInt32.toNat = [1, 3 * bs * bs, H, W]) :
    ∃ s, Mlvc.resolveShape xd = .ok s ∧ s.bs = bs ∧ s.preH.toNat = H ∧ s.preW.toNat = W := by
  have rank : xd.length = 4 := by
    have lengths := congrArg List.length dims
    rwa [List.length_map] at lengths
  match xd, rank, dims with
  | [n, c, h, w], _, dims =>
    simp only [List.map_cons, List.map_nil, List.cons.injEq, and_true] at dims
    obtain ⟨-, channels, rfl, rfl⟩ := dims
    have square : 2 * 2 ≤ bs * bs := Nat.mul_le_mul big big
    rw [Nat.mul_assoc] at channels
    have three : c ≠ 3 := by
      rintro rfl
      have : (3 : UInt32).toNat = 3 := rfl
      omega
    have extents : h ≠ 0 ∧ w ≠ 0 := by
      constructor
      · rintro rfl
        exact absurd positive.1 (Nat.lt_irrefl 0)
      · rintro rfl
        exact absurd positive.2 (Nat.lt_irrefl 0)
    have size : Mlvc.blockSize (c.toNat / 3) = bs := by
      rw [channels, Nat.mul_div_cancel_left _ (by decide)]
      exact blockSize_square big
    have read : ([n, c, h, w].getD 1 0 = c ∧ [n, c, h, w].getD 2 0 = h) ∧ [n, c, h, w].getD 3 0 = w :=
      ⟨⟨rfl, rfl⟩, rfl⟩
    rw [Mlvc.resolveShape, read.1.1, read.1.2, read.2]
    simp only [three, size, extents, if_false, or_false]
    rw [if_neg (by omega), if_neg (by omega)]
    exact ⟨_, rfl, rfl, rfl, rfl⟩

variable [Field K] [LinearOrder K]

/-- The decoder's shuffle and its saturation make the picture `old` of what the tail read. -/
def MakesUp (xd : List UInt32) (clipped : Bool) (new old : NdArray K) : Prop :=
  ∃ s, Mlvc.resolveShape xd = .ok s ∧ ∀ hs : List UInt16, hs.map halfVal = new.tensor.data →
    let shuffled := Mlvc.Pixel.nchwD2sDcrF16 hs 3 s.preH.toNat s.preW.toNat s.bs
    (shuffled.map fun h => saturate (halfVal h)) =
        (if clipped then old.tensor.data else old.tensor.data.map saturate) ∧
      ∀ hs' : List UInt16, hs'.map halfVal = old.tensor.data → Mlvc.Pixel.allFinite hs = true →
        Mlvc.Pixel.allFinite hs' = true → ∀ W H,
          Mlvc.Pixel.nchwYuvFp16ToNv12 shuffled W H = Mlvc.Pixel.nchwYuvFp16ToNv12 hs' W H

/-- The shuffle takes its samples from what it is given. -/
theorem nchwD2s_finite {hs : List UInt16} {OC H W bs : Nat} (finite : Mlvc.Pixel.allFinite hs = true) :
    Mlvc.Pixel.allFinite (Mlvc.Pixel.nchwD2sDcrF16 hs OC H W bs) = true := by
  have sample (k : Nat) : Mlvc.Pixel.fp16Finite (hs.getD k 0) = true := by
    rw [List.getD_eq_getElem?_getD]
    cases there : hs[k]? with
    | none => decide
    | some h => exact List.all_eq_true.mp finite h (List.mem_of_getElem? there)
  refine List.all_eq_true.mpr fun h listed => ?_
  simp only [Mlvc.Pixel.nchwD2sDcrF16, List.mem_flatMap, List.mem_map] at listed
  obtain ⟨c, -, y, -, x, -, rfl⟩ := listed
  exact sample _

variable [IsStrictOrderedRing K]

theorem saturate_twice (v : Val K) : saturate (saturate v) = saturate v := by
  cases v with
  | fin x => simp [saturate, clipVal, Val.max, Val.min]
  | posInf => simp [saturate, clipVal, Val.max, Val.min]
  | negInf => simp [saturate, clipVal, Val.max, Val.min]
  | nan => rfl

theorem makesUp {xd : List UInt32} {bs H W : Nat} {clipped : Bool} {new old : NdArray K} {t : Tensor (Val K)}
    (big : 2 ≤ bs) (positive : 0 < H ∧ 0 < W) (dims : xd.map UInt32.toNat = [1, 3 * bs * bs, H, W])
    (shape : new.tensor.shape = [1, 3 * bs * bs, H, W]) (shuffled : depthToSpace bs false new.tensor = some t)
    (gives : old.tensor = if clipped then t.map saturate else t) :
    old.tensor.shape = [1, 3, H * bs, W * bs] ∧ MakesUp xd clipped new old := by
  obtain ⟨s, resolved, size, preH, preW⟩ := resolveShape_tail big positive dims
  have reordered {hs : List UInt16} (halves : hs.map halfVal = new.tensor.data) :
      (Mlvc.Pixel.nchwD2sDcrF16 hs 3 H W bs).map halfVal = t.data :=
    nchwD2s_shuffles (by omega) shape shuffled halves
  have extents : t.shape = [1, 3, H * bs, W * bs] := by
    rw [depthToSpace_dcr (by omega) shape shuffled]
    rfl
  have saturated : old.tensor.data.map saturate = t.data.map saturate := by
    rw [gives]
    cases clipped with
    | false => rfl
    | true =>
      simp only [if_true, Tensor.map, List.map_map]
      exact List.map_congr_left fun v _ => saturate_twice v
  refine ⟨?_, s, resolved, fun hs halves => ?_⟩
  · rw [gives]
    cases clipped <;> exact extents
  · rw [size, preH, preW]
    have samples : (Mlvc.Pixel.nchwD2sDcrF16 hs 3 H W bs).map (fun h => saturate (halfVal h : Val K)) =
        t.data.map saturate := by
      rw [← reordered halves, List.map_map]
      rfl
    constructor
    · cases clipped with
      | false =>
        rw [samples, gives]
        rfl
      | true =>
        rw [samples, gives]
        rfl
    · intro hs' halves' finite finite' W' H'
      refine nv12_saturate (K := K) (nchwD2s_finite finite) finite' ?_
      rw [samples, ← saturated, ← halves', List.map_map]
      rfl

end Decoder

/-! ## What is accepted -/

section Accepted

variable {g : Graph K} {infer : Infer K} [Field K] [LinearOrder K] [FloorRing K] [IsStrictOrderedRing K]

/-- What a graph has whose head is taken out, and what it computes. -/
structure HeadMadeUp (g g' : Graph K) (report : ExtractReport K) (target : NodeProto K) : Prop where
  found : g.head = some target
  outputs : g'.outputNames = g.outputNames.map (swap (target.output.headD "") (target.input.headD ""))
  declared : g'.input = modifyFirst (target.input.headD "") (setDims report.outShape) g.input
  results : g.HeadAlone target → ∀ (ext : Flow.Meaning (Op K) (NdArray K)) (feed : Flow.Env String (NdArray K))
    (x : NdArray K) (outs : List (String × NdArray K)), feed (target.input.headD "") = some x →
    g.results ext feed = some outs → ∃ t, spaceToDepth report.blocksize x.tensor = some t ∧
      (x.tensor.shape = report.inShape → t.shape = report.outShape) ∧
      g'.results ext (feed.set (target.input.headD "") { x with tensor := t }) =
        some (outs.map fun o => (swap (target.output.headD "") (target.input.headD "") o.1, o.2))

/-- What a graph has whose tail is taken out, and what it computes. -/
structure TailMadeUp (g g' : Graph K) (report : ExtractReport K) (xHat : ValueInfo) (tail : Tail K) : Prop where
  found : g.xHat = some xHat ∧ g.tailOf xHat.name = .ok tail
  outputs : (∀ name ∈ g.outputNames, name ∈ g'.outputNames) ↔ (tail.convOut ∈ g.outputNames → tail.convOut = xHat.name)
  results : g.TailAlone xHat.name tail → ∀ (ext : Flow.Meaning (Op K) (NdArray K))
    (feed : Flow.Env String (NdArray K)) (outs : List (String × NdArray K)), g.results ext feed = some outs →
    ∃ new old, (xHat.name, old) ∈ outs ∧
      g'.results ext feed = some (outs.map fun o => (o.1, if o.1 = xHat.name then new else o.2)) ∧
      ∀ H W xd, report.inShape = [1, 3 * report.blocksize * report.blocksize, H, W] →
        new.tensor.shape = report.inShape → xd.map UInt32.toNat = report.inShape →
          old.tensor.shape = [1, 3, H * report.blocksize, W * report.blocksize] ∧
            MakesUp xd tail.clip.isSome new old

/-- **What the tool accepts** the CPU makes up for, where nothing else had to do with what is taken out and
the tail is the decoder's. -/
theorem extract_spec (valid : g.Valid) (lawful : Infer.Lawful infer) :
    (∀ g' report, extractLeadingSpaceToDepth infer g = .ok (g', report) → ∃ target, HeadMadeUp g g' report target) ∧
      ∀ g' report, extractTrailingDepthToSpace infer g = .ok (g', report) →
        ∃ xHat tail, TailMadeUp g g' report xHat tail := by
  constructor
  · intro g' report made
    obtain ⟨target, found, left⟩ := extractLeading_spec lawful made
    refine ⟨target, found, left.outputs, left.input, fun alone ext feed x outs fed results => ?_⟩
    obtain ⟨t, reordered, same⟩ := head_results valid found left alone fed results
    refine ⟨t, reordered, fun shape => ?_, same⟩
    obtain ⟨n, c, h, w, dims, -, -, outShape⟩ := left.shape
    rw [outShape]
    rw [spaceToDepth, shape, dims] at reordered
    simp only at reordered
    split at reordered
    · cases reordered
      rfl
    · cases reordered
  · intro g' report made
    obtain ⟨xHat, tail, output, found, left⟩ := extractTrailing_spec lawful made
    have listed : xHat.name ∈ g.outputNames := List.mem_map_of_mem (List.mem_of_find?_eq_some output)
    have has := tailOf_spec found
    refine ⟨xHat, tail, ⟨output, found⟩, ?_, fun alone ext feed outs results => ?_⟩
    · rw [left.outputs]
      constructor
      · intro all conv
        have kept := (List.mem_filter.mp (all _ conv)).2
        simpa using kept
      · intro same name listed
        refine List.mem_filter.mpr ⟨listed, decide_eq_true ?_⟩
        by_cases conv : name = tail.convOut
        · rw [conv] at listed ⊢
          exact .inl (same listed)
        · exact .inr conv
    · obtain ⟨new, t, old, shuffled, gives, hat, rest⟩ := tail_results valid has left alone listed results
      refine ⟨new, old, hat, rest, fun H W xd dims shape xd_dims => ?_⟩
      have positive := left.inShape
      rw [dims] at positive shape xd_dims
      refine makesUp left.blocksize.1 ⟨positive H ?_, positive W ?_⟩ xd_dims shape shuffled gives
      · simp
      · simp

end Accepted

/-! ## A small graph -/

def scalarArray (x : ℚ) : NdArray ℚ := ⟨.float16, ⟨[], [.fin x], rfl⟩⟩

def pictureHead : NodeProto ℚ where
  opType := "SpaceToDepth"
  name := "s2d"
  input := ["x"]
  output := ["u"]
  attributes := [{ name := "blocksize", i := 2 }]

def pictureShuffle (mode : String) : NodeProto ℚ where
  opType := "DepthToSpace"
  name := "d2s"
  input := ["head"]
  output := ["p"]
  attributes := [{ name := "blocksize", i := 2 }, { name := "mode", s := mode }]

def pictureClip : NodeProto ℚ where
  opType := "Clip"
  name := "clip"
  input := ["p", "lo", "hi"]
  output := ["x_hat"]

/-- A picture is unshuffled, goes through an operator, and is shuffled and clipped. -/
def pictureGraph (mode : String) : Graph ℚ where
  node := [pictureHead, { opType := "Conv", name := "conv", input := ["u"], output := ["head"] }, pictureShuffle mode,
    pictureClip]
  initializer := [{ name := "lo", value := scalarArray 0 }, { name := "hi", value := scalarArray 1 }]
  input := [{ name := "x", dims := [some 1, some 3, some 2, some 2] }]
  output := [{ name := "x_hat" }]
  valueInfo := [{ name := "head", dims := [some 1, some 12, some 1, some 1] },
    { name := "p", dims := [some 1, some 3, some 2, some 2] }]

def pictureMode (crd : Bool) : String := if crd then "CRD" else "DCR"

theorem pictureGraph_valid (crd : Bool) : (pictureGraph (pictureMode crd)).Valid := by
  constructor
  · cases crd <;> decide +kernel
  · cases crd <;> decide +kernel
  · cases crd <;> decide +kernel
  · cases crd <;> decide +kernel
  · cases crd <;> decide +kernel
  · cases crd <;> decide +kernel
  · apply plain_of
    cases crd <;> decide +kernel
  · cases crd <;> decide +kernel
  · cases crd <;> decide +kernel

def passExt : Flow.Meaning (Op ℚ) (NdArray ℚ) := fun _ args => (args[0]?).join.map ([·])

/-- A picture with one sample. -/
def pictureFeed : Flow.Env String (NdArray ℚ) := fun name =>
  if name = "x" then
    some ⟨.float16, ⟨[1, 3, 2, 2], [0, 0, 0, 0, 1, 0, 0, 0, 0, 0, 0, 0].map fun b : ℚ => .fin b, rfl⟩⟩
  else none

/-- The unshuffled picture. -/
def unshuffled : NdArray ℚ :=
  ⟨.float16, ⟨[1, 12, 1, 1], [0, 1, 0, 0, 0, 0, 0, 0, 0, 0, 0, 0].map fun b : ℚ => .fin b, rfl⟩⟩

theorem ok_of_decide {ε α : Type} {r : Except ε α} {P : α → Prop} [DecidablePred P]
    (facts : r.toOption.map (fun a => decide (P a)) = some true) : ∃ a, r = .ok a ∧ P a := by
  cases r with
  | error e => cases facts
  | ok a => exact ⟨a, rfl, of_decide_eq_true (Option.some.inj facts)⟩

/-- What is left of the graph without its tail. -/
theorem pictureGraph_tail (crd : Bool) : ∃ r,
    extractTrailingDepthToSpace keepShapes (pictureGraph (pictureMode crd)) = .ok r ∧
      r.2.inShape = [1, 12, 1, 1] ∧ r.1.results passExt pictureFeed = some [("x_hat", unshuffled)] := by
  refine ok_of_decide ?_
  cases crd <;> decide +kernel

/-- The mode is written down and not looked at. -/
theorem extract_crd : ∃ g g' report new old outs, g.Valid ∧
    extractTrailingDepthToSpace keepShapes g = .ok (g', report) ∧ g.results passExt pictureFeed = some outs ∧
      outs = [("x_hat", old)] ∧ g'.results passExt pictureFeed = some [("x_hat", new)] ∧
        new.tensor.shape = report.inShape ∧ report.inShape = [1, 12, 1, 1] ∧ ¬MakesUp [1, 12, 1, 1] true new old := by
  obtain ⟨⟨g', report⟩, made, facts⟩ := pictureGraph_tail true
  refine ⟨_, g', report, unshuffled, ⟨.float16, ⟨[1, 3, 2, 2],
    [0, 1, 0, 0, 0, 0, 0, 0, 0, 0, 0, 0].map fun b : ℚ => .fin b, rfl⟩⟩, _, pictureGraph_valid true, made, ?_, rfl,
    facts.2, facts.1.symm, facts.1, ?_⟩
  · decide +kernel
  · rintro ⟨s, resolved, up⟩
    have bound : Mlvc.resolveShape [1, 12, 1, 1] = .ok { bs := 2, preC := 12, preH := 1, preW := 1, imgH := 2, imgW := 2 } := by
      rfl
    cases resolved.symm.trans bound
    have := (up [0, 0x3c00, 0, 0, 0, 0, 0, 0, 0, 0, 0, 0] (by decide +kernel)).1
    revert this
    decide +kernel

theorem pictureHead_alone : (pictureGraph "DCR").head = some pictureHead ∧
    (pictureGraph "DCR").HeadAlone pictureHead := by
  refine ⟨by decide +kernel, ?_⟩
  constructor <;> decide +kernel

theorem pictureGraph_head : ∃ r, extractLeadingSpaceToDepth keepShapes (pictureGraph "DCR") = .ok r ∧
    r.2.outShape = [1, 12, 1, 1] := by
  refine ok_of_decide ?_
  decide +kernel

def pictureTail : Tail ℚ where
  d2s := pictureShuffle "DCR"
  clip := some pictureClip
  clipLo := some (.fin 0)
  clipHi := some (.fin 1)

theorem pictureTail_alone : (pictureGraph "DCR").tailOf "x_hat" = .ok pictureTail ∧
    (pictureGraph "DCR").TailAlone "x_hat" pictureTail := by
  refine ⟨by decide +kernel, ?_⟩
  constructor
  · decide +kernel
  · decide +kernel
  · decide +kernel
  · decide +kernel
  · decide +kernel
  · decide +kernel
  · intro clip same
    cases same
    decide +kernel

/-- The decoder's tail, and a head that stands alone. -/
theorem extract_small :
    (∃ g' report target, HeadMadeUp (pictureGraph "DCR") g' report target ∧ (pictureGraph "DCR").HeadAlone target) ∧
      (∃ g' report xHat tail, TailMadeUp (pictureGraph "DCR") g' report xHat tail ∧
        (pictureGraph "DCR").TailAlone xHat.name tail) ∧
      ((pictureGraph "DCR").results passExt pictureFeed).isSome := by
  obtain ⟨heads, tails⟩ := extract_spec (pictureGraph_valid false) keepShapes_lawful
  refine ⟨?_, ?_, by decide +kernel⟩
  · obtain ⟨⟨g', report⟩, made, -⟩ := pictureGraph_head
    obtain ⟨target, up⟩ := heads g' report made
    obtain ⟨found, alone⟩ := pictureHead_alone
    cases found.symm.trans up.found
    exact ⟨g', report, pictureHead, up, alone⟩
  · obtain ⟨⟨g', report⟩, made, -⟩ := pictureGraph_tail false
    obtain ⟨xHat, tail, up⟩ := tails g' report made
    obtain ⟨found, alone⟩ := pictureTail_alone
    have output : (pictureGraph "DCR").xHat = some { name := "x_hat" } := by decide +kernel
    cases output.symm.trans up.found.1
    cases found.symm.trans up.found.2
    exact ⟨g', report, _, pictureTail, up, alone⟩

end Rkvc.Onnx
