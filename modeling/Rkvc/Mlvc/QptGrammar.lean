import Rkvc.Mlvc.Qptab

/-!
# The grammar of QPT1

A QPT1 string is the magic number, the number of tables, and for each table its
name, its dimensions and its halves. `load_qptab` takes these strings and no others
(`loadQptab_iff`): each reader has a lemma for what it took (`_sound`) and one for
what it takes (`_bytes`). With a cursor and the number of bytes left, as the source
has it, the loader reads nothing outside of what it is given (`Checked.loadQptab_eq`).
-/

namespace Rkvc.Mlvc
set_option autoImplicit false
open Lib

/-- The halves of a table, low byte first. -/
def halfBytes (data : List UInt16) : List UInt8 := data.flatMap fun h => leBytes 2 h.toNat

/-- A table of the grammar. -/
structure QpTable.Grammatical (t : QpTable) : Prop where
  name : 1 ≤ t.name.length ∧ t.name.length ≤ kQptabNameMax
  rows : 1 ≤ t.rows
  cols : 1 ≤ t.cols
  elems : t.rows * t.cols ≤ 2 ^ 20
  data : t.data.length = t.rows * t.cols

def QpTable.bytes (t : QpTable) : List UInt8 :=
  leBytes 4 t.name.length ++ (t.name ++ (leBytes 4 t.rows ++ (leBytes 4 t.cols ++ halfBytes t.data)))

/-- **A QPT1 string** and its tables. -/
structure Qpt1 (tables : List QpTable) (data : List UInt8) : Prop where
  count : 1 ≤ tables.length ∧ tables.length ≤ kQptabMaxTables
  each : ∀ t ∈ tables, t.Grammatical
  bytes : data = qptMagic ++ (leBytes 4 tables.length ++ tables.flatMap QpTable.bytes)

section Words

variable {data : List UInt8} {n off : Nat}

theorem rdU32_front (small : n < 256 ^ 4) (front rest : List UInt8) :
    rdU32 (front ++ (leBytes 4 n ++ rest)) front.length = n := by
  rw [rdU32, List.drop_left, List.take_left' (leBytes_length 4 n), leVal_leBytes small]

/-- The bytes that a number was read from. -/
theorem rdU32_sound (inside : off + 4 ≤ data.length) : (data.drop off).take 4 = leBytes 4 (rdU32 data off) := by
  have same := leBytes_leVal ((data.drop off).take 4)
  rw [field_length inside] at same
  exact same.symm

/-- The number and what is behind it. -/
theorem rdU32_split (inside : off + 4 ≤ data.length) :
    data.drop off = leBytes 4 (rdU32 data off) ++ data.drop (off + 4) := by
  rw [← rdU32_sound inside, ← List.drop_drop, List.take_append_drop]

theorem rdU32_first (inside : 4 ≤ data.length) : data = leBytes 4 (rdU32 data 0) ++ data.drop 4 := by
  have split : data.drop 0 = _ := rdU32_split (by omega)
  rw [List.drop_zero] at split
  exact split

theorem rdU16s_succ (data : List UInt8) (n : Nat) :
    rdU16s data (n + 1) = UInt16.ofNat (leVal (data.take 2)) :: rdU16s (data.drop 2) n := by
  rw [rdU16s, List.range_succ_eq_map, List.map_cons, List.map_map]
  apply congrArg (UInt16.ofNat (leVal (data.take 2)) :: ·)
  apply List.map_congr_left
  intro i _
  rw [Function.comp_apply, Nat.succ_eq_add_one, List.drop_drop, Nat.mul_add, Nat.add_comm]

theorem rdU16s_length (data : List UInt8) (n : Nat) : (rdU16s data n).length = n := by
  simp only [rdU16s, List.length_map, List.length_range]

theorem halfBytes_length (data : List UInt16) : (halfBytes data).length = 2 * data.length := by
  induction data with
  | nil => rfl
  | cons h data ih =>
    rw [halfBytes, List.flatMap_cons, List.length_append, leBytes_length, ← halfBytes, ih, List.length_cons]
    omega

/-- The halves come back. -/
theorem rdU16s_bytes (halves : List UInt16) (rest : List UInt8) :
    rdU16s (halfBytes halves ++ rest) halves.length = halves := by
  induction halves with
  | nil => rfl
  | cons h halves ih =>
    have split : halfBytes (h :: halves) ++ rest = leBytes 2 h.toNat ++ (halfBytes halves ++ rest) := by
      rw [halfBytes, List.flatMap_cons, List.append_assoc]
      rfl
    have value : leVal (leBytes 2 h.toNat) = h.toNat := leVal_leBytes (show h.toNat < 256 ^ 2 from h.toNat_lt)
    rw [split, List.length_cons, rdU16s_succ, List.take_left' (leBytes_length 2 _), List.drop_left' (leBytes_length 2 _),
      ih, value, UInt16.ofNat_toNat]

/-- The bytes that halves were read from. -/
theorem rdU16s_sound (n : Nat) (data : List UInt8) (inside : 2 * n ≤ data.length) :
    data.take (2 * n) = halfBytes (rdU16s data n) := by
  induction n generalizing data with
  | zero => rfl
  | succ n ih =>
    have later := ih (data.drop 2) (by rw [List.length_drop]; omega)
    have two : (data.take 2).length = 2 := by
      rw [List.length_take]
      omega
    have first := leBytes_leVal (data.take 2)
    have small := leVal_lt (data.take 2)
    rw [two] at first small
    have half : (UInt16.ofNat (leVal (data.take 2))).toNat = leVal (data.take 2) := by
      rw [UInt16.toNat_ofNat']
      exact Nat.mod_eq_of_lt small
    rw [rdU16s_succ, halfBytes, List.flatMap_cons, half, first, ← halfBytes, ← later, Nat.mul_succ, Nat.add_comm,
      List.take_add]

end Words

section Loader

variable {t : QpTable} {cur rest : List UInt8} {count : Nat} {tables : List QpTable} {data : List UInt8}

/-- A table that was loaded is one of the grammar, and its bytes are what was passed. -/
theorem loadTable_sound (loaded : loadTable cur = .ok (t, rest)) : t.Grammatical ∧ cur = t.bytes ++ rest := by
  simp only [loadTable] at loaded
  split at loaded
  · cases loaded
  · rename_i four
    split at loaded
    · cases loaded
    · rename_i named
      split at loaded
      · cases loaded
      · rename_i dims
        split at loaded
        · cases loaded
        · rename_i whole
          cases loaded
          -- front to back: each field is the bytes that it was read from
          have nameLen : cur = leBytes 4 (rdU32 cur 0) ++ cur.drop 4 := rdU32_first (by omega)
          generalize rdU32 cur 0 = n at *
          generalize cur.drop 4 = afterLen at *
          have name : afterLen = afterLen.take n ++ afterLen.drop n := (List.take_append_drop n afterLen).symm
          have length : (afterLen.take n).length = n := by
            rw [List.length_take]
            omega
          have left : (afterLen.drop n).length = afterLen.length - n := List.length_drop
          generalize afterLen.take n = name at *
          generalize afterLen.drop n = afterName at *
          have rows : afterName = leBytes 4 (rdU32 afterName 0) ++ afterName.drop 4 := rdU32_first (by omega)
          have cols : afterName.drop 4 = leBytes 4 (rdU32 afterName 4) ++ afterName.drop 8 := rdU32_split (by omega)
          generalize rdU32 afterName 0 = r at *
          generalize rdU32 afterName 4 = c at *
          generalize afterName.drop 8 = afterDims at *
          have halves := rdU16s_sound (r * c) afterDims (by omega)
          have behind := (List.take_append_drop (2 * (r * c)) afterDims).symm
          rw [halves] at behind
          have twice : r * c * 2 = 2 * (r * c) := Nat.mul_comm _ _
          simp only [not_or, Nat.not_lt] at named dims
          constructor
          · exact {
              name := by
                rw [length]
                exact ⟨Nat.pos_of_ne_zero named.1, named.2.1⟩
              rows := Nat.pos_of_ne_zero dims.1
              cols := Nat.pos_of_ne_zero dims.2.1
              elems := dims.2.2
              data := rdU16s_length afterDims (r * c) }
          · simp only [QpTable.bytes, List.append_assoc]
            rw [length, twice, ← behind, ← cols, ← rows, ← name]
            exact nameLen

/-- A table of the grammar is loaded from its bytes, whatever is behind them. -/
theorem loadTable_bytes (well : t.Grammatical) (rest : List UInt8) : loadTable (t.bytes ++ rest) = .ok (t, rest) := by
  obtain ⟨name, rows, cols, data⟩ := t
  obtain ⟨⟨named, short⟩, someRows, someCols, elems, size⟩ := well
  dsimp only at named short someRows someCols elems size
  have limit : kQptabNameMax = 32 := rfl
  have rows32 : rows < 256 ^ 4 := by
    have below : rows ≤ rows * cols := Nat.le_mul_of_pos_right rows someCols
    omega
  have cols32 : cols < 256 ^ 4 := by
    have below : cols ≤ rows * cols := Nat.le_mul_of_pos_left cols someRows
    omega
  have bytes := halfBytes_length data
  have shape : QpTable.bytes ⟨name, rows, cols, data⟩ ++ rest =
      leBytes 4 name.length ++ (name ++ (leBytes 4 rows ++ (leBytes 4 cols ++ (halfBytes data ++ rest)))) := by
    simp only [QpTable.bytes, List.append_assoc]
  have first := rdU32_front (n := name.length) (by omega) []
     (name ++ (leBytes 4 rows ++ (leBytes 4 cols ++ (halfBytes data ++ rest))))
  have second := rdU32_front rows32 [] (leBytes 4 cols ++ (halfBytes data ++ rest))
  have third := rdU32_front cols32 (leBytes 4 rows) (halfBytes data ++ rest)
  rw [List.nil_append, List.length_nil] at first second
  rw [leBytes_length] at third
  have dropLen : (leBytes 4 name.length ++ (name ++ (leBytes 4 rows ++ (leBytes 4 cols ++ (halfBytes data ++ rest))))).drop 4 =
      name ++ (leBytes 4 rows ++ (leBytes 4 cols ++ (halfBytes data ++ rest))) :=
    List.drop_left' (leBytes_length 4 _)
  have dropDims : (leBytes 4 rows ++ (leBytes 4 cols ++ (halfBytes data ++ rest))).drop 8 = halfBytes data ++ rest := by
    rw [← List.append_assoc]
    exact List.drop_left' (by rw [List.length_append, leBytes_length, leBytes_length])
  have all : rows * cols * 2 = (halfBytes data).length := by omega
  rw [shape, loadTable, if_neg (by rw [List.length_append, leBytes_length]; omega)]
  simp only [first, dropLen]
  rw [if_neg, List.drop_left, List.take_left]
  · simp only [second, third, dropDims]
    rw [if_neg (by unfold kMaxElems; omega), if_neg (by rw [List.length_append]; omega), all, List.drop_left, ← size,
      rdU16s_bytes]
  · simp only [not_or, List.length_append, leBytes_length]
    omega

theorem loadTables_sound (loaded : loadTables count cur = .ok (tables, rest)) :
    tables.length = count ∧ (∀ t ∈ tables, t.Grammatical) ∧ cur = tables.flatMap QpTable.bytes ++ rest := by
  induction count generalizing cur tables with
  | zero =>
    cases loaded
    exact ⟨rfl, nofun, rfl⟩
  | succ count ih =>
    simp only [loadTables] at loaded
    split at loaded
    · cases loaded
    · rename_i t cur' first
      split at loaded
      · cases loaded
      · rename_i tables' cur'' others
        cases loaded
        obtain ⟨well, front⟩ := loadTable_sound first
        obtain ⟨counted, each, behind⟩ := ih others
        refine ⟨congrArg (· + 1) counted, List.forall_mem_cons.mpr ⟨well, each⟩, ?_⟩
        rw [front, behind, List.flatMap_cons, List.append_assoc]

theorem loadTables_bytes (each : ∀ t ∈ tables, t.Grammatical) (rest : List UInt8) :
    loadTables tables.length (tables.flatMap QpTable.bytes ++ rest) = .ok (tables, rest) := by
  induction tables with
  | nil => rfl
  | cons t tables ih =>
    obtain ⟨well, each⟩ := List.forall_mem_cons.mp each
    rw [List.length_cons, loadTables, List.flatMap_cons, List.append_assoc, loadTable_bytes well]
    simp only [ih each]

/-- **`load_qptab` takes the QPT1 strings**, and no others. -/
theorem loadQptab_iff : loadQptab data = .ok tables ↔ Qpt1 tables data := by
  have magic : qptMagic.length = 4 := rfl
  constructor
  · intro loaded
    simp only [loadQptab] at loaded
    split at loaded
    · cases loaded
    · rename_i header
      simp only [not_or, Nat.not_lt, Decidable.not_not] at header
      obtain ⟨eight, isMagic⟩ := header
      split at loaded
      · cases loaded
      · rename_i counted
        split at loaded
        · cases loaded
        · rename_i tables' cur others
          split at loaded
          · cases loaded
          · rename_i ended
            cases loaded
            obtain ⟨number, each, behind⟩ := loadTables_sound others
            rw [Decidable.not_not.mp ended, List.append_nil] at behind
            have count : data.drop 4 = leBytes 4 (rdU32 data 4) ++ data.drop 8 := rdU32_split (by omega)
            refine ⟨by omega, each, ?_⟩
            rw [number, ← behind, ← count, ← isMagic, List.take_append_drop]
  · rintro ⟨⟨some, few⟩, each, rfl⟩
    have few' : tables.length ≤ 8 := few
    have number : rdU32 (qptMagic ++ (leBytes 4 tables.length ++ tables.flatMap QpTable.bytes)) 4 = tables.length :=
      rdU32_front (by omega) qptMagic _
    have behind : (qptMagic ++ (leBytes 4 tables.length ++ tables.flatMap QpTable.bytes)).drop 8 =
        tables.flatMap QpTable.bytes := by
      rw [← List.append_assoc]
      exact List.drop_left' (by rw [List.length_append, leBytes_length]; rfl)
    have loaded := loadTables_bytes each []
    rw [List.append_nil] at loaded
    rw [loadQptab, if_neg]
    · simp only [number, behind]
      rw [if_neg (by omega), loaded]
      rfl
    · simp only [List.length_append, leBytes_length, not_or, Nat.not_lt, Decidable.not_not]
      exact ⟨by omega, rfl⟩

end Loader

namespace Checked

/-! ## The cursor

`none` is a read outside of the data. The source keeps the number of bytes left beside the
cursor, and tests this number. -/

/-- The range `[data + pos, data + pos + n)`. -/
def range (data : List UInt8) (pos n : Nat) : Option (List UInt8) :=
  if pos + n ≤ data.length then some ((data.drop pos).take n) else none

/-- `rd_u32`. -/
def rdU32 (data : List UInt8) (pos : Nat) : Option Nat := (range data pos 4).map leVal

/-- One table, the cursor behind it, and what is left there. -/
def loadTable (data : List UInt8) (cur left : Nat) : Option (Result (QpTable × Nat × Nat)) :=
  if left < 4 then some (badQptab "truncated name len")
  else (rdU32 data cur).bind fun nameLen =>
    let cur := cur + 4
    let left := left - 4
    if nameLen = 0 ∨ nameLen > kQptabNameMax ∨ left < nameLen + 8 then some (badQptab "bad name")
    else (range data cur nameLen).bind fun name =>
      let cur := cur + nameLen
      let left := left - nameLen
      (rdU32 data cur).bind fun rows => (rdU32 data (cur + 4)).bind fun cols =>
        let cur := cur + 8
        let left := left - 8
        if rows = 0 ∨ cols = 0 ∨ rows * cols > kMaxElems then some (badQptab "bad dims")
        else
          let bytes := rows * cols * 2
          if left < bytes then some (badQptab "truncated rows")
          else (range data cur bytes).map fun halves =>
            .ok ({ name, rows, cols, data := rdU16s halves (rows * cols) }, cur + bytes, left - bytes)

def loadTables (data : List UInt8) : Nat → Nat → Nat → Option (Result (List QpTable × Nat))
  | 0, _, left => some (.ok ([], left))
  | count + 1, cur, left =>
    (loadTable data cur left).bind fun
      | .error e => some (.error e)
      | .ok (t, cur, left) => (loadTables data count cur left).map fun
        | .error e => .error e
        | .ok (tables, left) => .ok (t :: tables, left)

/-- **`load_qptab`** with its cursor. -/
def loadQptab (data : List UInt8) : Option (Result (List QpTable)) :=
  if data.length < 8 then some (badQptab "bad magic")
  else (range data 0 4).bind fun magic =>
    if magic ≠ qptMagic then some (badQptab "bad magic")
    else (rdU32 data 4).bind fun count =>
      if count = 0 ∨ count > kQptabMaxTables then some (badQptab "bad table count")
      else (loadTables data count 8 (data.length - 8)).map fun
        | .error e => .error e
        | .ok (tables, left) => if left ≠ 0 then badQptab "trailing bytes" else .ok tables

variable {data : List UInt8} {pos cur left n : Nat}

theorem range_eq (inside : pos + n ≤ data.length) : range data pos n = some ((data.drop pos).take n) := by
  rw [range, if_pos inside]

theorem rdU32_eq (inside : pos + 4 ≤ data.length) : rdU32 data pos = some (Mlvc.rdU32 data pos) := by
  rw [rdU32, range_eq inside]
  rfl

theorem rdU32_drop (data : List UInt8) (pos off : Nat) :
    Mlvc.rdU32 (data.drop pos) off = Mlvc.rdU32 data (pos + off) := by
  rw [Mlvc.rdU32, List.drop_drop, Mlvc.rdU32]

/-- Halves are read from their own bytes. -/
theorem rdU16s_take (data : List UInt8) (n : Nat) : rdU16s (data.take (n * 2)) n = rdU16s data n := by
  apply List.map_congr_left
  intro i listed
  have below := List.mem_range.mp listed
  rw [List.drop_take, List.take_take, Nat.min_eq_left (by omega)]

/-- A cursor that stands where the bytes begin that are still to be read. -/
def Stands (data : List UInt8) {α : Type} : Result (α × Nat × Nat) → Result (α × List UInt8) → Prop
  | .ok (a, cur, left), r => r = .ok (a, data.drop cur) ∧ cur + left = data.length
  | .error e, r => r = .error e

theorem loadTable_stands (stands : cur + left = data.length) :
    ∃ r, loadTable data cur left = some r ∧ Stands data r (Mlvc.loadTable (data.drop cur)) := by
  have length : (data.drop cur).length = left := by
    rw [List.length_drop]
    omega
  simp only [loadTable, Mlvc.loadTable, length, rdU32_drop, List.drop_drop, List.length_drop, Nat.add_zero]
  by_cases short : left < 4
  · rw [if_pos short, if_pos short]
    exact ⟨_, rfl, rfl⟩
  · rw [if_neg short, if_neg short, rdU32_eq (by omega), Option.bind_some]
    generalize Mlvc.rdU32 data cur = nameLen
    have afterLen : data.length - (cur + 4) = left - 4 := by omega
    rw [afterLen]
    by_cases unnamed : nameLen = 0 ∨ nameLen > kQptabNameMax ∨ left - 4 < nameLen + 8
    · rw [if_pos unnamed, if_pos unnamed]
      exact ⟨_, rfl, rfl⟩
    · rw [if_neg unnamed, if_neg unnamed, range_eq (by omega), Option.bind_some, rdU32_eq (by omega), Option.bind_some,
        rdU32_eq (by omega), Option.bind_some]
      generalize Mlvc.rdU32 data (cur + 4 + nameLen) = rows
      generalize Mlvc.rdU32 data (cur + 4 + nameLen + 4) = cols
      have afterDims : data.length - (cur + 4 + nameLen + 8) = left - 4 - nameLen - 8 := by omega
      rw [afterDims]
      by_cases dims : rows = 0 ∨ cols = 0 ∨ rows * cols > kMaxElems
      · rw [if_pos dims, if_pos dims]
        exact ⟨_, rfl, rfl⟩
      · rw [if_neg dims, if_neg dims]
        by_cases truncated : left - 4 - nameLen - 8 < rows * cols * 2
        · rw [if_pos truncated, if_pos truncated]
          exact ⟨_, rfl, rfl⟩
        · rw [if_neg truncated, if_neg truncated, range_eq (by omega), Option.map_some, rdU16s_take]
          exact ⟨_, rfl, rfl, by omega⟩

theorem loadTables_stands (count : Nat) (stands : cur + left = data.length) :
    ∃ r, loadTables data count cur left = some r ∧
      (match r with
      | .ok (tables, left) => ∃ rest, Mlvc.loadTables count (data.drop cur) = .ok (tables, rest) ∧ rest.length = left
      | .error e => Mlvc.loadTables count (data.drop cur) = .error e) := by
  induction count generalizing cur left with
  | zero =>
    refine ⟨_, rfl, data.drop cur, rfl, ?_⟩
    rw [List.length_drop]
    omega
  | succ count ih =>
    obtain ⟨r, read, agrees⟩ := loadTable_stands stands
    rw [loadTables, read, Option.bind_some]
    cases r with
    | error e =>
      have refused : Mlvc.loadTable (data.drop cur) = .error e := agrees
      refine ⟨_, rfl, ?_⟩
      simp only [Mlvc.loadTables, refused]
    | ok loaded =>
      obtain ⟨t, cur', left'⟩ := loaded
      obtain ⟨first, stands'⟩ := agrees
      obtain ⟨r, read, agrees⟩ := ih stands'
      simp only [read, Option.map_some]
      cases r with
      | error e =>
        refine ⟨_, rfl, ?_⟩
        simp only [Mlvc.loadTables, first, agrees]
      | ok others =>
        obtain ⟨rest, others, counted⟩ := agrees
        refine ⟨_, rfl, rest, ?_, counted⟩
        simp only [Mlvc.loadTables, first, others]

/-- **The loader reads nothing outside** of the bytes it is given. -/
theorem loadQptab_eq (data : List UInt8) : loadQptab data = some (Mlvc.loadQptab data) := by
  rw [loadQptab, Mlvc.loadQptab]
  by_cases short : data.length < 8
  · rw [if_pos short, if_pos (Or.inl short)]
  · rw [if_neg short, range_eq (by omega), Option.bind_some, List.drop_zero]
    by_cases magic : data.take 4 ≠ qptMagic
    · rw [if_pos magic, if_pos (Or.inr magic)]
    · rw [if_neg magic, if_neg (not_or.mpr ⟨short, magic⟩), rdU32_eq (by omega), Option.bind_some]
      generalize Mlvc.rdU32 data 4 = count
      dsimp only
      by_cases bad : count = 0 ∨ count > kQptabMaxTables
      · rw [if_pos bad, if_pos bad]
      · rw [if_neg bad, if_neg bad]
        obtain ⟨r, read, agrees⟩ := loadTables_stands count (show 8 + (data.length - 8) = data.length by omega)
        rw [read, Option.map_some]
        cases r with
        | error e => simp only [agrees]
        | ok loaded =>
          obtain ⟨tables, left⟩ := loaded
          obtain ⟨rest, loaded, rfl⟩ := agrees
          simp only [loaded, ne_eq, List.length_eq_zero_iff]

end Checked

end Rkvc.Mlvc
