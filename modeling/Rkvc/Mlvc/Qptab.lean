import Rkvc.Mlvc.Pmf

/-!
# Tables of QP rows

The QPT1 payload of a qp-dynamic model, `load_qptab`, and the row of a QP in a
table. `qptab_row` takes the last row for a QP behind it.
-/

namespace Rkvc.Mlvc
set_option autoImplicit false
open Lib

def kQptabMaxTables : Nat := 8
def kQptabNameMax : Nat := 32
def kMaxElems : Nat := 1 <<< 20

/-- The bytes of a name. -/
def nameOf (s : String) : List UInt8 := s.toUTF8.toList

structure QpTable where
  name : List UInt8 := []
  rows : Nat := 0
  cols : Nat := 0
  data : List UInt16 := []
  deriving DecidableEq, Repr

/-- `QpTables::find`. -/
def findTable (tables : List QpTable) (name : List UInt8) : Option QpTable := tables.find? (·.name = name)

def qptabRow (t : QpTable) (q : Nat) : List UInt16 :=
  if t.data = [] ∨ t.cols = 0 then []
  else
    let q := if q ≥ t.rows then t.rows - 1 else q
    (t.data.drop (q * t.cols)).take t.cols

/-! ## Loading -/

/-- `"QPT1"`. -/
def qptMagic : List UInt8 := [0x51, 0x50, 0x54, 0x31]

def rdU16s (data : List UInt8) (n : Nat) : List UInt16 :=
  (List.range n).map fun i => UInt16.ofNat (leVal ((data.drop (2 * i)).take 2))

def badQptab {α : Type} (reason : String) : Result α := Result.reject .format "load" "qptab" reason

/-- One table, and the bytes behind it. -/
def loadTable (cur : List UInt8) : Result (QpTable × List UInt8) :=
  if cur.length < 4 then badQptab "truncated name len"
  else
    let nameLen := rdU32 cur 0
    let cur := cur.drop 4
    if nameLen = 0 ∨ nameLen > kQptabNameMax ∨ cur.length < nameLen + 8 then badQptab "bad name"
    else
      let name := cur.take nameLen
      let cur := cur.drop nameLen
      let rows := rdU32 cur 0
      let cols := rdU32 cur 4
      let cur := cur.drop 8
      if rows = 0 ∨ cols = 0 ∨ rows * cols > kMaxElems then badQptab "bad dims"
      else
        let bytes := rows * cols * 2
        if cur.length < bytes then badQptab "truncated rows"
        else .ok ({ name, rows, cols, data := rdU16s cur (rows * cols) }, cur.drop bytes)

def loadTables : Nat → List UInt8 → Result (List QpTable × List UInt8)
  | 0, cur => .ok ([], cur)
  | count + 1, cur =>
    match loadTable cur with
    | .error e => .error e
    | .ok (t, cur) =>
      match loadTables count cur with
      | .error e => .error e
      | .ok (tables, cur) => .ok (t :: tables, cur)

def loadQptab (data : List UInt8) : Result (List QpTable) :=
  if data.length < 8 ∨ data.take 4 ≠ qptMagic then badQptab "bad magic"
  else
    let count := rdU32 data 4
    if count = 0 ∨ count > kQptabMaxTables then badQptab "bad table count"
    else
      match loadTables count (data.drop 8) with
      | .error e => .error e
      | .ok (tables, cur) => if cur ≠ [] then badQptab "trailing bytes" else .ok tables

/-! ## What a loaded table is -/

/-- A table with rows, of which each has all its columns. -/
structure QpTable.Valid (t : QpTable) : Prop where
  rows : 0 < t.rows
  cols : 0 < t.cols
  data : t.data.length = t.rows * t.cols

variable {t : QpTable} {q : Nat}

theorem loadTable_valid {cur rest : List UInt8} (h : loadTable cur = .ok (t, rest)) : t.Valid := by
  simp only [loadTable] at h
  split at h
  · cases h
  · split at h
    · cases h
    · split at h
      · cases h
      · rename_i dims
        split at h
        · cases h
        · cases h
          simp only [not_or] at dims
          constructor
          · exact Nat.pos_of_ne_zero dims.1
          · exact Nat.pos_of_ne_zero dims.2.1
          · simp only [rdU16s, List.length_map, List.length_range]

theorem loadTables_valid {count : Nat} {cur rest : List UInt8} {tables : List QpTable}
    (h : loadTables count cur = .ok (tables, rest)) : ∀ t ∈ tables, t.Valid := by
  induction count generalizing cur tables with
  | zero =>
    cases h
    exact nofun
  | succ count ih =>
    simp only [loadTables] at h
    split at h
    · cases h
    · rename_i t cur' first
      split at h
      · cases h
      · rename_i tables' cur'' others
        cases h
        intro t' listed
        rcases List.mem_cons.mp listed with rfl | listed
        · exact loadTable_valid first
        · exact ih others t' listed

theorem loadQptab_valid {data : List UInt8} {tables : List QpTable} (h : loadQptab data = .ok tables) :
    ∀ t ∈ tables, t.Valid := by
  simp only [loadQptab] at h
  split at h
  · cases h
  · split at h
    · cases h
    · split at h
      · cases h
      · rename_i tables' cur loaded
        split at h
        · cases h
        · cases h
          exact loadTables_valid loaded

/-- The row a table has for a QP. -/
def QpTable.row (t : QpTable) (q : Nat) : List UInt16 := (t.data.drop (q * t.cols)).take t.cols

/-- A QP that a table covers is given its own row. -/
theorem qptabRow_of_lt (valid : t.Valid) (covered : q < t.rows) : qptabRow t q = t.row q := by
  have filled : t.data ≠ [] := by
    refine List.ne_nil_of_length_pos ?_
    rw [valid.data]
    exact Nat.mul_pos valid.rows valid.cols
  rw [qptabRow, if_neg (by simpa [filled] using valid.cols.ne'), if_neg (by omega)]
  rfl

/-- Any other QP is given the last row. -/
theorem qptabRow_of_le (valid : t.Valid) (behind : t.rows ≤ q) : qptabRow t q = t.row (t.rows - 1) := by
  have filled : t.data ≠ [] := by
    refine List.ne_nil_of_length_pos ?_
    rw [valid.data]
    exact Nat.mul_pos valid.rows valid.cols
  rw [qptabRow, if_neg (by simpa [filled] using valid.cols.ne'), if_pos behind]
  rfl

end Rkvc.Mlvc
