import Mathlib.Data.List.Infix
import Rkvc.Mlvc.Codec
import Rkvc.Mlvc.Qptab

/-!
# Models on the NPU

An `NpuModel` is a pure function of the inputs that have been set. A bundle makes one
model per rung, and a qp-dynamic one feeds rows of its tables to the inputs that are
named `q_…_row`.
-/

namespace Rkvc.Mlvc
set_option autoImplicit false
open Lib

def kKindRknn : String := "rknn"
def kKindQptab : String := "qptab"
def kMaxQrows : Nat := 4

structure NpuTensorInfo where
  name : List UInt8
  dims : List UInt32
  deriving DecidableEq, Repr

/-- What is fed for one run, in order: the index of an input and its halves. -/
abbrev Feed := List (Nat × List UInt16)

structure NpuModel where
  inputs : List NpuTensorInfo
  outputs : List NpuTensorInfo
  /-- `set_input`. -/
  accepts : Nat → List UInt16 → Status
  /-- `run`, after these inputs. -/
  run : Feed → Status
  output : Feed → Nat → List UInt16

/-- The calls of `set_input`, up to the first that fails, and `run`. -/
def NpuModel.play (npu : NpuModel) (feed : Feed) : Status :=
  match feed.find? fun i => npu.accepts i.1 i.2 ≠ .ok with
  | some i => npu.accepts i.1 i.2
  | none => npu.run feed

/-- A backend, and `init` of the models it makes: the base, the patch (empty without
one) and its QP. -/
structure NpuModelFn where
  make : Option (List UInt8 → List UInt8 → Int → Result NpuModel)

/-! ## Rungs -/

structure RungSet where
  models : List NpuModel
  rungQp : List Int

/-- The first patch of a QP. -/
def findPatch (model : Model) (qp : Int) : Option ModelPayload :=
  model.payloads.find? fun p => p.kind = kKindQppatch ∧ qppatchQp p.data = qp

/-- The model of one rung. -/
def initRung (model : Model) (base : List UInt8) (makeModel : NpuModelFn) (qp : Int) : Result NpuModel :=
  match makeModel.make with
  | none => Result.reject .unsupported "bind" "npu" "no npu backend"
  | some init => init base (((findPatch model qp).map (·.data)).getD []) qp

def initRungs (model : Model) (rungQp : List Int) (makeModel : NpuModelFn) : Result RungSet :=
  let missing : Result RungSet := Result.reject .format "bind" "rknn" "missing rknn payload"
  match model.find kKindRknn with
  | none => missing
  | some base =>
    if base.data = [] then missing
    else
      match rungQp.mapM (initRung model base.data makeModel) with
      | .error e => .error e
      | .ok models => .ok { models, rungQp }

/-! ## Rows -/

structure QRows where
  present : Bool := false
  /-- An input and the table of its rows. -/
  rows : List (Nat × QpTable) := []
  deriving DecidableEq

/-- A name of the form `q_…_row`. -/
def isQRow (n : List UInt8) : Bool :=
  n.length ≥ 7 && n.take 2 = nameOf "q_" && n.drop (n.length - 4) = nameOf "_row"

/-- The second loop of `setup_qrows`. -/
def bindRows (tables : List QpTable) : List (NpuTensorInfo × Nat) → List (Nat × QpTable) → Result (List (Nat × QpTable))
  | [], rows => .ok rows
  | (info, i) :: infos, rows =>
    if !isQRow info.name then bindRows tables infos rows
    else if rows.length ≥ kMaxQrows then Result.reject .format "bind" "qptab" "too many q rows"
    else
      match findTable tables info.name with
      | none => Result.reject .format "bind" "qptab" "missing row table"
      | some t => bindRows tables infos (rows ++ [(i, t)])

def setupQrows (model : Model) (npu : NpuModel) : Result QRows :=
  if !npu.inputs.any (isQRow ·.name) then .ok {}
  else
    match model.find kKindQptab with
    | none => Result.reject .format "bind" "qptab" "qp-dynamic model lacks qptab"
    | some qv =>
      match loadQptab qv.data with
      | .error e => bindFailure e.diag "qptab" "qptab load failed"
      | .ok tables =>
        match bindRows tables npu.inputs.zipIdx [] with
        | .error e => .error e
        | .ok rows => .ok { present := !rows.isEmpty, rows }

/-- The rows of a QP, as they are fed. -/
def QRows.feed (qrows : QRows) (qp : Int) : Feed := qrows.rows.map fun r => (r.1, qptabRow r.2 (toU32 qp))

/-- `find_input`: the first tensor whose name contains the key. -/
def findInput (ts : List NpuTensorInfo) (key : String) : Option Nat := ts.findIdx? fun t => nameOf key <:+: t.name

/-- `find_output`. -/
def findOutput (ts : List NpuTensorInfo) (key : String) : Option Nat := findInput ts key

/-- `elems`: the product of the last three of four dimensions, in a `size_t`. -/
def elems (d : List UInt32) : Nat := u64 ((d.getD 1 0).toNat * (d.getD 2 0).toNat * (d.getD 3 0).toNat)

/-! ## What binding establishes -/

section Rungs

variable {model : Model} {sessionQp : Int} {rungQp : List Int} {makeModel : NpuModelFn} {rs : RungSet}

theorem insertRung_perm (qp : Int) (rungQp : List Int) : (insertRung qp rungQp).Perm (qp :: rungQp) := by
  have parts : rungQp = (rungQp.reverse.dropWhile (· > qp)).reverse ++ (rungQp.reverse.takeWhile (· > qp)).reverse := by
    rw [← List.reverse_append, List.takeWhile_append_dropWhile, List.reverse_reverse]
  rw [insertRung, List.append_assoc, List.singleton_append]
  refine List.perm_middle.trans (List.Perm.cons qp ?_)
  rw [← parts]

theorem collectRung_spec {p : ModelPayload} (distinct : rungQp.Nodup) (range : ∀ q ∈ rungQp, 0 ≤ q ∧ q ≤ 63) :
    (collectRung rungQp p).Nodup ∧ ∀ q ∈ collectRung rungQp p, 0 ≤ q ∧ q ≤ 63 := by
  simp only [collectRung]
  split
  · exact ⟨distinct, range⟩
  · split
    · exact ⟨distinct, range⟩
    · rename_i valid
      split
      · exact ⟨distinct, range⟩
      · rename_i fresh
        have perm := insertRung_perm (qppatchQp p.data) rungQp
        constructor
        · rw [perm.nodup_iff, List.nodup_cons]
          exact ⟨fun listed => fresh (.inl listed), distinct⟩
        · intro q listed
          rcases List.mem_cons.mp (perm.mem_iff.mp listed) with rfl | listed
          · omega
          · exact range q listed

/-- The rungs of a bundle: distinct, of the range of QPs, or else the session's alone. -/
theorem collectRungs_spec (h : collectRungs model sessionQp = .ok rungQp) :
    rungQp.Nodup ∧ rungQp ≠ [] ∧ sessionQp ∈ rungQp ∧
      ((∀ q ∈ rungQp, 0 ≤ q ∧ q ≤ 63) ∨ rungQp = [sessionQp]) := by
  have found : ∀ (payloads : List ModelPayload) (rungQp : List Int), rungQp.Nodup →
      (∀ q ∈ rungQp, 0 ≤ q ∧ q ≤ 63) → (payloads.foldl collectRung rungQp).Nodup ∧
        ∀ q ∈ payloads.foldl collectRung rungQp, 0 ≤ q ∧ q ≤ 63 := by
    intro payloads
    induction payloads with
    | nil => exact fun _ distinct range => ⟨distinct, range⟩
    | cons p payloads ih =>
      intro rungQp distinct range
      obtain ⟨distinct, range⟩ := collectRung_spec (p := p) distinct range
      exact ih _ distinct range
  simp only [collectRungs] at h
  split at h
  · cases h
    exact ⟨by simp, nofun, List.mem_cons_self, .inr rfl⟩
  · rename_i some
    split at h
    · rename_i listed
      cases h
      obtain ⟨distinct, range⟩ := found model.payloads [] List.nodup_nil nofun
      exact ⟨distinct, by simpa using some, listed, .inl range⟩
    · cases h

theorem mapM_forall₂ {α β : Type} {f : α → Result β} {xs : List α} {ys : List β} (h : xs.mapM f = .ok ys) :
    List.Forall₂ (fun x y => f x = .ok y) xs ys := by
  induction xs generalizing ys with
  | nil =>
    cases h
    exact .nil
  | cons x xs ih =>
    rw [List.mapM_cons] at h
    cases first : f x with
    | error e =>
      rw [first] at h
      cases h
    | ok y =>
      rw [first] at h
      cases others : xs.mapM f with
      | error e =>
        rw [others] at h
        cases h
      | ok ys' =>
        rw [others] at h
        cases h
        exact .cons first (ih others)

theorem initRungs_spec (h : initRungs model rungQp makeModel = .ok rs) :
    rs.rungQp = rungQp ∧
      ∃ base, List.Forall₂ (fun qp npu => initRung model base makeModel qp = .ok npu) rungQp rs.models := by
  simp only [initRungs] at h
  split at h
  · cases h
  · split at h
    · cases h
    · split at h
      · cases h
      · rename_i models made
        cases h
        exact ⟨rfl, _, mapM_forall₂ made⟩

end Rungs

section Rows

variable {model : Model} {npu : NpuModel} {qrows : QRows}

theorem bindRows_tables {tables : List QpTable} {infos : List (NpuTensorInfo × Nat)} {rows out : List (Nat × QpTable)}
    (h : bindRows tables infos rows = .ok out) (listed : ∀ r ∈ rows, r.2 ∈ tables) : ∀ r ∈ out, r.2 ∈ tables := by
  induction infos generalizing rows with
  | nil =>
    cases h
    exact listed
  | cons info infos ih =>
    simp only [bindRows] at h
    split at h
    · exact ih h listed
    · split at h
      · cases h
      · split at h
        · cases h
        · rename_i t found
          refine ih h fun r bound => ?_
          rcases List.mem_append.mp bound with bound | bound
          · exact listed r bound
          · rw [List.mem_singleton.mp bound]
            exact List.mem_of_find?_eq_some found

/-- The rows of a bound model are those of tables that hold all of theirs. -/
theorem setupQrows_spec (h : setupQrows model npu = .ok qrows) :
    (qrows.present = true ↔ qrows.rows ≠ []) ∧ ∀ r ∈ qrows.rows, r.2.Valid := by
  simp only [setupQrows] at h
  split at h
  · cases h
    exact ⟨⟨nofun, fun some => absurd rfl some⟩, nofun⟩
  · split at h
    · cases h
    · split at h
      · cases h
      · rename_i tables loaded
        split at h
        · cases h
        · rename_i rows bound
          cases h
          constructor
          · simp
          · intro r listed
            exact loadQptab_valid loaded _ (bindRows_tables bound nofun r listed)

end Rows

end Rkvc.Mlvc
