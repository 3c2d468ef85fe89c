import Rkvc.Mlvc.QptGrammar
import Rkvc.Onnx.QpRows

/-!
# The file of the tables

`write_qptab` writes the tables that were taken out of a graph, and the runtime loads them
as they were: what it feeds for a QP is the row of the table (`loadQptab_write`).
-/

namespace Rkvc.Onnx
set_option autoImplicit false
open Lib Mlvc

def maxName : Nat := 32

/-- `struct.pack("<I", n)`. -/
def packU32 (n : Nat) : Except OnnxRewriteError (List UInt8) :=
  if n < 2 ^ 32 then .ok (leBytes 4 n) else .error ⟨"'I' format requires 0 <= number <= 4294967295"⟩

def wrU16s (data : List UInt16) : List UInt8 := data.flatMap fun h => leBytes 2 h.toNat

/-- One table. -/
def writeTable (t : QpTable) : Except OnnxRewriteError (List UInt8) :=
  let name := nameOf t.name
  if name = [] ∨ name.length > maxName then .error ⟨s!"表名无效: '{t.name}'"⟩
  else if 2 * t.dataFp16.length ≠ t.rows * t.cols * 2 then
    .error ⟨s!"表 {t.name} 数据长度 {2 * t.dataFp16.length} != {t.rows}×{t.cols}×2"⟩
  else
    match packU32 name.length, packU32 t.rows, packU32 t.cols with
    | .ok length, .ok rows, .ok cols => .ok (length ++ (name ++ (rows ++ (cols ++ wrU16s t.dataFp16))))
    | .error e, _, _ | _, .error e, _ | _, _, .error e => .error e

def writeTables : List QpTable → Except OnnxRewriteError (List UInt8)
  | [] => .ok []
  | t :: tables =>
    match writeTable t, writeTables tables with
    | .ok body, .ok rest => .ok (body ++ rest)
    | .error e, _ | _, .error e => .error e

def writeQptab (tables : List QpTable) : Except OnnxRewriteError (List UInt8) :=
  match packU32 tables.length, writeTables tables with
  | .ok count, .ok bodies => .ok (qptMagic ++ (count ++ bodies))
  | .error e, _ | _, .error e => .error e

/-- A table that the runtime takes. -/
structure QpTable.Loads (t : QpTable) : Prop where
  rows : t.rows ≠ 0
  cols : t.cols ≠ 0
  elems : t.rows * t.cols ≤ kMaxElems

theorem packU32_ok {n : Nat} {bytes : List UInt8} (packed : packU32 n = .ok bytes) : n < 256 ^ 4 ∧ bytes = leBytes 4 n := by
  rw [packU32] at packed
  split at packed
  · rename_i small
    cases packed
    exact ⟨small, rfl⟩
  · cases packed

/-- What a written table consists of. -/
theorem writeTable_ok {t : QpTable} {bytes : List UInt8} (written : writeTable t = .ok bytes) :
    nameOf t.name ≠ [] ∧ (nameOf t.name).length ≤ maxName ∧ t.dataFp16.length = t.rows * t.cols ∧ t.rows < 256 ^ 4 ∧
      t.cols < 256 ^ 4 ∧ bytes = leBytes 4 (nameOf t.name).length ++ (nameOf t.name ++ (leBytes 4 t.rows ++
        (leBytes 4 t.cols ++ wrU16s t.dataFp16))) := by
  simp only [writeTable] at written
  split at written
  · cases written
  · rename_i name
    split at written
    · cases written
    · rename_i size
      split at written
      · rename_i length rows cols packedLength packedRows packedCols
        cases written
        obtain ⟨-, rfl⟩ := packU32_ok packedLength
        obtain ⟨smallRows, rfl⟩ := packU32_ok packedRows
        obtain ⟨smallCols, rfl⟩ := packU32_ok packedCols
        simp only [not_or, not_lt] at name
        exact ⟨name.1, name.2, by omega, smallRows, smallCols, rfl⟩
      · cases written
      · cases written
      · cases written

/-- A written table is the bytes of the table that the runtime has. -/
theorem writeTable_bytes {t : QpTable} {bytes : List UInt8} (written : writeTable t = .ok bytes) :
    bytes = t.host.bytes := by
  obtain ⟨-, -, -, -, -, rfl⟩ := writeTable_ok written
  rfl

/-- It is one of the grammar where the runtime takes its dimensions. -/
theorem writeTable_grammatical {t : QpTable} {bytes : List UInt8} (written : writeTable t = .ok bytes) :
    t.host.Grammatical ↔ t.Loads := by
  obtain ⟨named, short, size, -, -, -⟩ := writeTable_ok written
  constructor
  · intro well
    exact ⟨Nat.ne_of_gt well.rows, Nat.ne_of_gt well.cols, well.elems⟩
  · intro loads
    exact {
      name := ⟨List.length_pos_iff.mpr named, short⟩
      rows := Nat.pos_of_ne_zero loads.rows
      cols := Nat.pos_of_ne_zero loads.cols
      elems := loads.elems
      data := size }

theorem writeTables_ok {tables : List QpTable} {bytes : List UInt8} (written : writeTables tables = .ok bytes) :
    bytes = (tables.map QpTable.host).flatMap Mlvc.QpTable.bytes ∧
      ∀ t ∈ tables, (t.host.Grammatical ↔ t.Loads) := by
  induction tables generalizing bytes with
  | nil =>
    cases written
    exact ⟨rfl, nofun⟩
  | cons t tables ih =>
    simp only [writeTables] at written
    split at written
    · rename_i body others one all
      cases written
      obtain ⟨rfl, loads⟩ := ih all
      refine ⟨?_, List.forall_mem_cons.mpr ⟨writeTable_grammatical one, loads⟩⟩
      rw [List.map_cons, List.flatMap_cons, writeTable_bytes one]
    · cases written
    · cases written

/-- What is written is the grammar's string of the tables, as far as it is one. -/
theorem writeQptab_qpt1 {tables : List QpTable} {bytes : List UInt8} (written : writeQptab tables = .ok bytes) :
    Qpt1 (tables.map QpTable.host) bytes ↔
      tables ≠ [] ∧ tables.length ≤ kQptabMaxTables ∧ ∀ t ∈ tables, t.Loads := by
  simp only [writeQptab] at written
  split at written
  · rename_i count bodies packed all
    cases written
    obtain ⟨-, rfl⟩ := packU32_ok packed
    obtain ⟨rfl, loads⟩ := writeTables_ok all
    constructor
    · intro well
      have count := well.count
      rw [List.length_map] at count
      refine ⟨List.length_pos_iff.mp count.1, count.2, fun t listed => ?_⟩
      exact (loads t listed).mp (well.each _ (List.mem_map_of_mem listed))
    · rintro ⟨some, few, each⟩
      refine ⟨?_, ?_, ?_⟩
      · rw [List.length_map]
        exact ⟨List.length_pos_iff.mpr some, few⟩
      · intro t listed
        obtain ⟨t, written, rfl⟩ := List.mem_map.mp listed
        exact (loads t written).mpr (each t written)
      · rw [List.length_map]
  · cases written
  · cases written

/-- **The tables come through their file**: what is written is loaded, as far as the runtime takes it. -/
theorem loadQptab_write {tables : List QpTable} {bytes : List UInt8} (written : writeQptab tables = .ok bytes) :
    loadQptab bytes = .ok (tables.map QpTable.host) ↔
      tables ≠ [] ∧ tables.length ≤ kQptabMaxTables ∧ ∀ t ∈ tables, t.Loads := by
  rw [loadQptab_iff, writeQptab_qpt1 written]

/-- **Writer and loader agree** exactly on the lists of one to eight tables that have rows and columns,
and not too many of them; the loader takes the QPT1 strings and reads nothing outside of them. -/
theorem qptab_agree {tables : List QpTable} {bytes : List UInt8} (written : writeQptab tables = .ok bytes)
    (data : List UInt8) (loaded : List Mlvc.QpTable) :
    (loadQptab bytes = .ok (tables.map QpTable.host) ↔
      tables ≠ [] ∧ tables.length ≤ kQptabMaxTables ∧ ∀ t ∈ tables, t.Loads) ∧
    Checked.loadQptab data = some (loadQptab data) ∧
    (loadQptab data = .ok loaded ↔ Qpt1 loaded data) := by
  refine ⟨?_, ?_, ?_⟩
  · exact loadQptab_write written
  · exact Checked.loadQptab_eq data
  · exact loadQptab_iff

/-- Tables of one element. -/
def smallTables (count : Nat) : List QpTable :=
  List.replicate count { name := "q", source := "q", rows := 1, cols := 1, dataFp16 := [0x3c00] }

/-- Their file. -/
def smallFile (count : Nat) : List UInt8 :=
  qptMagic ++ (leBytes 4 count ++ (List.replicate count [1, 0, 0, 0, 0x71, 1, 0, 0, 0, 1, 0, 0, 0, 0, 0x3c]).flatten)

/-- A table of one row of one column comes through. -/
theorem qptab_agree_one : loadQptab (smallFile 1) = .ok ((smallTables 1).map QpTable.host) := by
  have written : writeQptab (smallTables 1) = .ok (smallFile 1) := by decide +kernel
  apply (qptab_agree written [] []).1.mpr
  refine ⟨by decide, by decide, ?_⟩
  intro t listed
  cases List.eq_of_mem_replicate listed
  exact ⟨by decide, by decide, by decide⟩

/-- **Nine tables are written and not loaded.** -/
theorem qptab_disagree : writeQptab (smallTables 9) = .ok (smallFile 9) ∧
    loadQptab (smallFile 9) = badQptab "bad table count" := by
  constructor
  · decide +kernel
  · decide +kernel

end Rkvc.Onnx
