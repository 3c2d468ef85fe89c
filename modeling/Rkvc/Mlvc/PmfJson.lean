import Rkvc.Mlvc.PmfGrammar

/-!
# The writer of PMF1

`json_to_pmf1` packs a JSON object one field behind the other. What it writes is a PMF1
string of what the object says (`jsonToPmf1_ok`), so that `load_pmf` gives it back
(`pmf1_agree`). What Python does to texts and floats is a parameter.
-/

namespace Rkvc.Mlvc
set_option autoImplicit false
open Lib

/-! ## The object -/

/-- What `json.load` gives. A `float` is its bit pattern, a `dict` the list of its items. -/
inductive Json where
  | null
  | bool (b : Bool)
  | int (n : Int)
  | float (bits : UInt64)
  | string (s : String)
  | array (items : List Json)
  | object (items : List (String × Json))

/-- What is raised. -/
inductive Raised where
  | pmfError (message : String)
  | keyError
  | typeError
  | valueError
  | overflowError
  | structError
  deriving DecidableEq

/-- Conversions of floats and texts, and `repr`. -/
structure Python where
  truncate : UInt64 → Except Raised Int
  parseInt : String → Except Raised Int
  round : Int → Except Raised UInt64
  parseFloat : String → Except Raised UInt64
  repr : Json → String

namespace PmfJson

/-- `int(value)`. -/
def int (py : Python) : Json → Except Raised Int
  | .bool b => .ok (if b then 1 else 0)
  | .int n => .ok n
  | .float bits => py.truncate bits
  | .string s => py.parseInt s
  | .null | .array _ | .object _ => .error .typeError

/-- `float(value)`. -/
def float (py : Python) : Json → Except Raised UInt64
  | .bool b => py.round (if b then 1 else 0)
  | .int n => py.round n
  | .float bits => .ok bits
  | .string s => py.parseFloat s
  | .null | .array _ | .object _ => .error .typeError

/-- `bool(value)`. -/
def truthy : Json → Bool
  | .null => false
  | .bool b => b
  | .int n => n ≠ 0
  | .float bits => bits &&& 0x7fffffffffffffff ≠ 0
  | .string s => s ≠ ""
  | .array items => !items.isEmpty
  | .object items => !items.isEmpty

/-- `iter(value)`. -/
def iter : Json → Except Raised (List Json)
  | .array items => .ok items
  | .string s => .ok (s.toList.map fun c => .string c.toString)
  | .object items => .ok (items.map fun item => .string item.1)
  | .null | .bool _ | .int _ | .float _ => .error .typeError

/-- The loop of `_as_int_list`, from index `i` on. -/
def asInts (py : Python) (name : String) : Nat → List Json → Except Raised (List Int)
  | _, [] => .ok []
  | i, raw :: values =>
    match int py raw with
    | .ok n => (asInts py name (i + 1) values).map (n :: ·)
    | .error .typeError | .error .valueError =>
      let text := py.repr raw
      .error (.pmfError s!"{name}[{i}] 不是整数: {text}")
    | .error e => .error e

/-- `_as_int_list`. -/
def asIntList (py : Python) (name : String) (values : Json) : Except Raised (List Int) :=
  (iter values).bind (asInts py name 0)

/-- `data[name]`. -/
def field (data : List (String × Json)) (name : String) : Except Raised Json :=
  match data.lookup name with
  | some value => .ok value
  | none => .error .keyError

/-- `_require`. -/
def require (data : List (String × Json)) (keys : List String) : Except Raised Unit :=
  let missing := keys.filter fun k => (data.lookup k).isNone
  if missing = [] then .ok ()
  else
    let names := String.intercalate ", " missing
    .error (.pmfError s!"JSON 缺少字段: {names}")

def detectKind (data : List (String × Json)) : Except Raised String :=
  let has := fun k => (data.lookup k).isSome
  if has "scale_min" || has "scale_levels" || has "index_space" then .ok "gaussian"
  else if has "qp_num" || has "channels" then .ok "bitest"
  else .error (.pmfError
    "无法判断 PMF 类型：需要 gaussian(scale_min/scale_levels) 或 bitest(qp_num/channels)")

/-- `_U32.pack`. -/
def packU32 (n : Int) : Except Raised (List UInt8) :=
  if 0 ≤ n ∧ n < 2 ^ 32 then .ok (leBytes 4 n.toNat) else .error .structError

/-- `_I32.pack`. -/
def packI32 (n : Int) : Except Raised (List UInt8) :=
  if -2 ^ 31 ≤ n ∧ n < 2 ^ 31 then .ok (leBytes 4 (toU32 n)) else .error .structError

/-- `b"".join(_I32.pack(v) for v in values)`. -/
def packI32s : List Int → Except Raised (List UInt8)
  | [] => .ok []
  | n :: values => (packI32 n).bind fun front => (packI32s values).map (front ++ ·)

/-- `_F64.pack`. -/
def packF64 (bits : UInt64) : List UInt8 := leBytes 8 bits.toNat

def gaussianTail (py : Python) (data : List (String × Json)) : Except Raised (List UInt8) := do
  require data ["scale_min", "scale_max", "scale_levels"]
  let indexSpace := (data.lookup "index_space").getD (.bool false)
  let tag ← packU32 1
  let scaleMin ← (field data "scale_min").bind (float py)
  let scaleMax ← (field data "scale_max").bind (float py)
  let levels ← ((field data "scale_levels").bind (int py)).bind packU32
  let space ← packU32 (if truthy indexSpace then 1 else 0)
  return tag ++ (packF64 scaleMin ++ (packF64 scaleMax ++ (levels ++ space)))

def bitestTail (py : Python) (data : List (String × Json)) (count : Nat) : Except Raised (List UInt8) := do
  require data ["qp_num", "channels"]
  let qpNum ← (field data "qp_num").bind (int py)
  let channels ← (field data "channels").bind (int py)
  if qpNum * channels ≠ count then
    let product := qpNum * channels
    .error (.pmfError s!"bitest 尺寸不一致: qp_num*{channels}={product} != len(pmf_lengths)={count}")
  else
    let tag ← packU32 2
    let first ← packU32 qpNum
    let second ← packU32 channels
    return tag ++ (first ++ second)

/-- `kind or detect_kind(data)`. -/
def kindOf (data : List (String × Json)) : Option String → Except Raised String
  | some kind => if kind = "" then detectKind data else .ok kind
  | none => detectKind data

/-- An array of the object. -/
def ints (py : Python) (data : List (String × Json)) (name : String) : Except Raised (List Int) :=
  (field data name).bind (asIntList py name)

/-- **`json_to_pmf1`**. -/
def jsonToPmf1 (py : Python) (data : List (String × Json)) (kind : Option String) : Except Raised (List UInt8) := do
  let kind ← kindOf data kind
  require data ["pmf_lengths", "pmf_offsets", "pmf_table"]
  let lengths ← ints py data "pmf_lengths"
  let offsets ← ints py data "pmf_offsets"
  let table ← ints py data "pmf_table"
  let nL ← packU32 lengths.length
  let nO ← packU32 offsets.length
  let nT ← packU32 table.length
  let arrayL ← packI32s lengths
  let arrayO ← packI32s offsets
  let arrayT ← packI32s table
  let tail ← (if kind = "gaussian" then gaussianTail py data
    else if kind = "bitest" then bitestTail py data lengths.length
    else .error (.pmfError s!"未知 PMF 类型: {kind}"))
  return pmfMagic ++ (nL ++ (nO ++ (nT ++ (arrayL ++ (arrayO ++ (arrayT ++ tail))))))

/-! ## What the object says -/

/-- The tail of a Gaussian table. -/
structure Gaussian (py : Python) (data : List (String × Json)) (p : Pmf) : Prop where
  kind : p.gaussian = true
  scaleMin : ∃ bits, (field data "scale_min").bind (float py) = .ok bits ∧ p.scaleMin = bits.toNat
  scaleMax : ∃ bits, (field data "scale_max").bind (float py) = .ok bits ∧ p.scaleMax = bits.toNat
  scaleLevels : (field data "scale_levels").bind (int py) = .ok p.scaleLevels
  indexSpace : p.indexSpace = if truthy ((data.lookup "index_space").getD (.bool false)) then 1 else 0

/-- The tail of a bit estimator. -/
structure Bitest (py : Python) (data : List (String × Json)) (p : Pmf) : Prop where
  kind : p.gaussian = false
  qpNum : (field data "qp_num").bind (int py) = .ok p.qpNum
  channels : (field data "channels").bind (int py) = .ok p.channels

/-- A payload that says what the object says. -/
structure Says (py : Python) (data : List (String × Json)) (kind : Option String) (p : Pmf) : Prop where
  lengths : ints py data "pmf_lengths" = .ok (p.lengths.map Int32.toInt)
  offsets : ints py data "pmf_offsets" = .ok (p.offsets.map Int32.toInt)
  table : ints py data "pmf_table" = .ok (p.table.map Int32.toInt)
  tail : kindOf data kind = .ok "gaussian" ∧ Gaussian py data p ∨ kindOf data kind = .ok "bitest" ∧ Bitest py data p

section Writer

variable {py : Python} {data : List (String × Json)} {kind : Option String} {bytes : List UInt8} {values : List Int} {n : Int}

theorem bind_ok {α β : Type} {x : Except Raised α} {f : α → Except Raised β} {b : β} :
    x.bind f = .ok b ↔ ∃ a, x = .ok a ∧ f a = .ok b := by
  cases x with
  | error e => simp [Except.bind]
  | ok a => simp [Except.bind]

theorem map_ok {α β : Type} {x : Except Raised α} {f : α → β} {b : β} : x.map f = .ok b ↔ ∃ a, x = .ok a ∧ f a = b := by
  cases x with
  | error e => simp [Except.map]
  | ok a => simp [Except.map]

theorem packU32_ok (packed : packU32 n = .ok bytes) : ∃ k : Nat, n = k ∧ k < 2 ^ 32 ∧ bytes = leBytes 4 k := by
  rw [packU32] at packed
  split at packed
  · rename_i range
    cases packed
    exact ⟨n.toNat, by omega, by omega, rfl⟩
  · cases packed

/-- An array that is packed consists of signed words. -/
theorem packI32s_ok (packed : packI32s values = .ok bytes) :
    ∃ words : List Int32, values = words.map Int32.toInt ∧ bytes = wordBytes words := by
  induction values generalizing bytes with
  | nil =>
    cases packed
    exact ⟨[], rfl, rfl⟩
  | cons n values ih =>
    obtain ⟨front, first, packed⟩ := bind_ok.mp packed
    rw [packI32] at first
    split at first
    · rename_i range
      cases first
      obtain ⟨behind, later, rfl⟩ := map_ok.mp packed
      obtain ⟨words, rfl, rfl⟩ := ih later
      have same : (Int32.ofInt n).toInt = n := Int32.toInt_ofInt_of_le range.1 range.2
      refine ⟨Int32.ofInt n :: words, ?_, ?_⟩
      · rw [List.map_cons, same]
      · rw [wordBytes_cons, same]
    · cases first

theorem gaussianTail_ok (packed : gaussianTail py data = .ok bytes) :
    ∃ p : Pmf, Gaussian py data p ∧ p.OneTail ∧ bytes = p.tail := by
  obtain ⟨_, required, packed⟩ := bind_ok.mp packed
  obtain ⟨tag, tagged, packed⟩ := bind_ok.mp packed
  obtain ⟨scaleMin, isMin, packed⟩ := bind_ok.mp packed
  obtain ⟨scaleMax, isMax, packed⟩ := bind_ok.mp packed
  obtain ⟨levels, isLevels, packed⟩ := bind_ok.mp packed
  obtain ⟨space, isSpace, packed⟩ := bind_ok.mp packed
  cases packed
  obtain ⟨n, levelsRead, packedLevels⟩ := bind_ok.mp isLevels
  obtain ⟨k, rfl, k32, rfl⟩ := packU32_ok packedLevels
  cases tagged
  obtain ⟨flag, isFlag, flag32, rfl⟩ := packU32_ok isSpace
  refine ⟨{ scaleMin := scaleMin.toNat, scaleMax := scaleMax.toNat, scaleLevels := k, indexSpace := flag, gaussian := true },
    ?_, ?_, rfl⟩
  · exact {
      kind := rfl
      scaleMin := ⟨scaleMin, isMin, rfl⟩
      scaleMax := ⟨scaleMax, isMax, rfl⟩
      scaleLevels := levelsRead
      indexSpace := by
        apply Int.ofNat_inj.mp
        rw [← isFlag]
        split <;> rfl }
  · exact {
      scales := ⟨scaleMin.toNat_lt, scaleMax.toNat_lt⟩
      words := ⟨k32, flag32, Nat.two_pow_pos 32, Nat.two_pow_pos 32⟩
      other := ⟨rfl, rfl⟩ }

theorem bitestTail_ok {count : Nat} (packed : bitestTail py data count = .ok bytes) :
    ∃ p : Pmf, Bitest py data p ∧ p.OneTail ∧ bytes = p.tail := by
  obtain ⟨_, required, packed⟩ := bind_ok.mp packed
  obtain ⟨qpNum, isQp, packed⟩ := bind_ok.mp packed
  obtain ⟨channels, isChannels, packed⟩ := bind_ok.mp packed
  split at packed
  · cases packed
  · obtain ⟨tag, tagged, packed⟩ := bind_ok.mp packed
    obtain ⟨first, firstPacked, packed⟩ := bind_ok.mp packed
    obtain ⟨second, secondPacked, packed⟩ := bind_ok.mp packed
    cases packed
    cases tagged
    obtain ⟨q, rfl, q32, rfl⟩ := packU32_ok firstPacked
    obtain ⟨c, rfl, c32, rfl⟩ := packU32_ok secondPacked
    refine ⟨{ qpNum := q, channels := c }, ⟨rfl, isQp, isChannels⟩, ?_, rfl⟩
    exact {
      scales := ⟨Nat.two_pow_pos 64, Nat.two_pow_pos 64⟩
      words := ⟨Nat.two_pow_pos 32, Nat.two_pow_pos 32, q32, c32⟩
      other := ⟨rfl, rfl, rfl, rfl⟩ }

theorem tail_ok {named : String} {count : Nat} {e : Raised}
    (packed : (if named = "gaussian" then gaussianTail py data
      else if named = "bitest" then bitestTail py data count else .error e) = .ok bytes) :
    ∃ p : Pmf, (named = "gaussian" ∧ Gaussian py data p ∨ named = "bitest" ∧ Bitest py data p) ∧ p.OneTail ∧
      bytes = p.tail := by
  split at packed
  · rename_i isGaussian
    obtain ⟨p, said, one, isTail⟩ := gaussianTail_ok packed
    exact ⟨p, .inl ⟨isGaussian, said⟩, one, isTail⟩
  · split at packed
    · rename_i isBitest
      obtain ⟨p, said, one, isTail⟩ := bitestTail_ok packed
      exact ⟨p, .inr ⟨isBitest, said⟩, one, isTail⟩
    · cases packed

/-- What is written is a PMF1 string that holds what the object says. -/
theorem jsonToPmf1_ok (written : jsonToPmf1 py data kind = .ok bytes) :
    ∃ p : Pmf, Says py data kind p ∧ bytes = p.bytes ∧
      (1 ≤ p.lengths.length ∧ p.lengths.length ≤ kMaxLen → 1 ≤ p.offsets.length ∧ p.offsets.length ≤ kMaxLen →
        1 ≤ p.table.length ∧ p.table.length ≤ kMaxTab → p.Grammatical) := by
  obtain ⟨named, isKind, written⟩ := bind_ok.mp written
  obtain ⟨_, required, written⟩ := bind_ok.mp written
  obtain ⟨lengths, isL, written⟩ := bind_ok.mp written
  obtain ⟨offsets, isO, written⟩ := bind_ok.mp written
  obtain ⟨table, isT, written⟩ := bind_ok.mp written
  obtain ⟨nL, countL, written⟩ := bind_ok.mp written
  obtain ⟨nO, countO, written⟩ := bind_ok.mp written
  obtain ⟨nT, countT, written⟩ := bind_ok.mp written
  obtain ⟨arrayL, packedL, written⟩ := bind_ok.mp written
  obtain ⟨arrayO, packedO, written⟩ := bind_ok.mp written
  obtain ⟨arrayT, packedT, written⟩ := bind_ok.mp written
  obtain ⟨tail, packedTail, written⟩ := bind_ok.mp written
  cases written
  obtain ⟨wordsL, rfl, rfl⟩ := packI32s_ok packedL
  obtain ⟨wordsO, rfl, rfl⟩ := packI32s_ok packedO
  obtain ⟨wordsT, rfl, rfl⟩ := packI32s_ok packedT
  obtain ⟨kL, sameL, _, rfl⟩ := packU32_ok countL
  obtain ⟨kO, sameO, _, rfl⟩ := packU32_ok countO
  obtain ⟨kT, sameT, _, rfl⟩ := packU32_ok countT
  rw [List.length_map] at sameL sameO sameT
  obtain rfl := Int.ofNat_inj.mp sameL
  obtain rfl := Int.ofNat_inj.mp sameO
  obtain rfl := Int.ofNat_inj.mp sameT
  obtain ⟨t, said, one, rfl⟩ := tail_ok packedTail
  refine ⟨{ t with lengths := wordsL, offsets := wordsO, table := wordsT }, ⟨isL, isO, isT, ?_⟩, rfl, ?_⟩
  · rcases said with ⟨rfl, said⟩ | ⟨rfl, said⟩
    · exact .inl ⟨isKind, said.kind, said.scaleMin, said.scaleMax, said.scaleLevels, said.indexSpace⟩
    · exact .inr ⟨isKind, said.kind, said.qpNum, said.channels⟩
  · intro someL someO someT
    exact ⟨someL, someO, someT, one.scales, one.words, one.other⟩

end Writer

end PmfJson

section Agreement

open PmfJson

/-- **What is written is loaded as it was**, and the loader computes no offset that wraps and
reads nothing outside of any string. -/
theorem pmf1_agree (py : Python) (data : List (String × Json)) (kind : Option String) :
    (∀ (bytes : List UInt8) (lengths offsets table : List Int), jsonToPmf1 py data kind = .ok bytes →
      ints py data "pmf_lengths" = .ok lengths → ints py data "pmf_offsets" = .ok offsets →
      ints py data "pmf_table" = .ok table → 1 ≤ lengths.length ∧ lengths.length ≤ 2 ^ 20 →
      1 ≤ offsets.length ∧ offsets.length ≤ 2 ^ 20 → 1 ≤ table.length ∧ table.length ≤ 2 ^ 24 →
      ∃ p, loadPmf bytes = .ok p ∧ p.lengths.map Int32.toInt = lengths ∧ p.offsets.map Int32.toInt = offsets ∧
        p.table.map Int32.toInt = table ∧
        (kindOf data kind = .ok "gaussian" ∧ Gaussian py data p ∨ kindOf data kind = .ok "bitest" ∧ Bitest py data p)) ∧
    ∀ string, Checked.loadPmf string = some (loadPmf string) := by
  constructor
  · intro bytes lengths offsets table written isL isO isT someL someO someT
    obtain ⟨p, held, rfl, well⟩ := jsonToPmf1_ok written
    have sameL := isL.symm.trans held.lengths
    have sameO := isO.symm.trans held.offsets
    have sameT := isT.symm.trans held.table
    cases sameL
    cases sameO
    cases sameT
    rw [List.length_map] at someL someO someT
    have loaded := loadPmf_bytes (well someL someO someT) []
    rw [List.append_nil] at loaded
    exact ⟨p, loaded, rfl, rfl, rfl, held.tail⟩
  · exact Checked.loadPmf_eq

/-- A Python that is asked to convert nothing. -/
def noConversions : Python where
  truncate _ := .error .valueError
  parseInt _ := .error .valueError
  round _ := .error .overflowError
  parseFloat _ := .error .valueError
  repr _ := ""

/-- One distribution and its Gaussian scales. -/
def oneDistribution : List (String × Json) :=
  [("pmf_lengths", .array [.int 2]), ("pmf_offsets", .array [.int (-1)]), ("pmf_table", .array [.int 10, .int 54]),
    ("scale_min", .float 0x3fbc28f5c28f5c29), ("scale_max", .float 0x4050000000000000), ("scale_levels", .int 64),
    ("index_space", .bool true)]

theorem pmf1_agree_one : ∃ bytes p, jsonToPmf1 noConversions oneDistribution none = .ok bytes ∧ loadPmf bytes = .ok p ∧
    p.offsets.map Int32.toInt = [-1] := by
  obtain ⟨p, loaded, _, offsets, _⟩ := (pmf1_agree noConversions oneDistribution none).1 _ [2] [-1] [10, 54] rfl rfl rfl rfl
    (by decide) (by decide) (by decide)
  exact ⟨_, p, rfl, loaded, offsets⟩

end Agreement

end Rkvc.Mlvc
