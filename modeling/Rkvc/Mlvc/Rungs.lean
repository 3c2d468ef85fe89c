import Rkvc.Mlvc.Npu
import Mathlib.Data.List.Induction
import Mathlib.Data.List.Sort
import Mathlib.Data.List.TakeWhile

/-!
# The rungs of a bundle

`collect_rungs` takes the QPs of the patches in the order of the payloads, each once,
until it has `kMaxRungs`, and keeps them sorted (`collected`). Which QPs it has in
the end depends on that order only where there are more than it keeps.
-/

namespace Rkvc.Mlvc
set_option autoImplicit false

/-- The QP of a valid patch. -/
def patchQp (p : ModelPayload) : Option Int :=
  if p.kind = kKindQppatch ∧ 0 ≤ qppatchQp p.data ∧ qppatchQp p.data ≤ 63 then some (qppatchQp p.data) else none

/-- The QPs of the valid patches, in payload order. -/
def patchQps (payloads : List ModelPayload) : List Int := payloads.filterMap patchQp

/-- The ones that are kept: the first `kMaxRungs` that differ. -/
def keptQps (payloads : List ModelPayload) : List Int := (patchQps payloads).eraseDups.take kMaxRungs

section First

variable {l : List Int} {q : Int}

theorem eraseDups_seen (seen : q ∈ l) : (l ++ [q]).eraseDups = l.eraseDups := by
  have nothing : [q].removeAll l = [] := by simp [List.removeAll, seen]
  rw [List.eraseDups_append, nothing, List.eraseDups_nil, List.append_nil]

theorem eraseDups_new (unseen : q ∉ l) : (l ++ [q]).eraseDups = l.eraseDups ++ [q] := by
  have alone : [q].removeAll l = [q] := by simp [List.removeAll, unseen]
  rw [List.eraseDups_append, alone, List.eraseDups_cons]
  rfl

theorem nodup_eraseDups (l : List Int) : l.eraseDups.Nodup := by
  induction l using List.reverseRecOn with
  | nil => exact List.nodup_nil
  | append_singleton l q ih =>
    by_cases seen : q ∈ l
    · rw [eraseDups_seen seen]
      exact ih
    · rw [eraseDups_new seen, List.nodup_append]
      refine ⟨ih, List.nodup_singleton q, ?_⟩
      rintro a listed b last rfl
      rw [List.mem_singleton.mp last] at listed
      exact seen (List.mem_eraseDups.mp listed)

end First

section Insert

variable {rungQp : List Int} {qp : Int}

/-- What is left of a descending list behind its larger rungs. -/
theorem dropWhile_le {l : List Int} (sorted : l.Pairwise (· > ·)) : ∀ q ∈ l.dropWhile (· > qp), q ≤ qp := by
  induction l with
  | nil => exact nofun
  | cons head tail ih =>
    obtain ⟨first, sorted⟩ := List.pairwise_cons.mp sorted
    by_cases larger : head > qp
    · rw [List.dropWhile_cons_of_pos (by simpa using larger)]
      exact ih sorted
    · rw [List.dropWhile_cons_of_neg (by simpa using larger)]
      intro q listed
      rcases List.mem_cons.mp listed with rfl | listed
      · exact Int.not_lt.mp larger
      · have below := first q listed
        omega

/-- A rung that is not there yet gets between the smaller and the larger ones. -/
theorem insertRung_ascending (ascending : rungQp.Pairwise (· < ·)) (fresh : qp ∉ rungQp) :
    (insertRung qp rungQp).Pairwise (· < ·) := by
  have descending : rungQp.reverse.Pairwise (· > ·) := List.pairwise_reverse.mpr ascending
  have below : ∀ q ∈ rungQp.reverse.dropWhile (· > qp), q < qp := by
    intro q listed
    have le := dropWhile_le descending q listed
    have ne : q ≠ qp := fun same =>
      fresh (List.mem_reverse.mp ((List.dropWhile_sublist _).subset (same ▸ listed)))
    omega
  have above : ∀ q ∈ rungQp.reverse.takeWhile (· > qp), qp < q := by
    intro q listed
    simpa using List.mem_takeWhile_imp listed
  rw [insertRung, List.append_assoc, List.singleton_append, List.pairwise_append, List.pairwise_cons]
  refine ⟨?_, ⟨?_, ?_⟩, ?_⟩
  · exact List.pairwise_reverse.mpr (descending.sublist (List.dropWhile_sublist _))
  · intro q listed
    exact above q (List.mem_reverse.mp listed)
  · exact List.pairwise_reverse.mpr (descending.sublist (List.takeWhile_sublist _))
  · intro a smaller b larger
    have first := below a (List.mem_reverse.mp smaller)
    rcases List.mem_cons.mp larger with rfl | larger
    · exact first
    · have second := above b (List.mem_reverse.mp larger)
      omega

end Insert

section Collect

variable {payloads payloads' : List ModelPayload} {p : ModelPayload} {rungQp : List Int} {q : Int}

/-- The set of rungs behind some payloads: sorted, and the ones that are to be kept. -/
structure Collected (payloads : List ModelPayload) (rungQp : List Int) : Prop where
  ascending : rungQp.Pairwise (· < ·)
  kept : rungQp.Perm (keptQps payloads)

theorem patchQps_append : patchQps (payloads ++ [p]) = patchQps payloads ++ (patchQp p).toList := by
  rw [patchQps, List.filterMap_append, ← patchQps]
  cases patched : patchQp p with
  | none => rw [List.filterMap_cons_none patched, List.filterMap_nil, Option.toList_none]
  | some qp => rw [List.filterMap_cons_some patched, List.filterMap_nil, Option.toList_some]

/-- A QP that is there already, or comes when there are enough, changes nothing. -/
theorem keptQps_same (patched : patchQp p = some q) (full : q ∈ keptQps payloads ∨ kMaxRungs ≤ (keptQps payloads).length) :
    keptQps (payloads ++ [p]) = keptQps payloads := by
  by_cases seen : q ∈ patchQps payloads
  · rw [keptQps, patchQps_append, patched, Option.toList_some, eraseDups_seen seen, keptQps]
  · rw [keptQps, patchQps_append, patched, Option.toList_some, eraseDups_new seen]
    rcases full with listed | full
    · exact absurd (List.mem_eraseDups.mp (List.mem_of_mem_take listed)) seen
    · rw [keptQps, List.length_take] at full
      rw [List.take_append_of_le_length (by omega), keptQps]

/-- Any other is kept. -/
theorem keptQps_new (patched : patchQp p = some q) (fresh : q ∉ keptQps payloads) (room : (keptQps payloads).length < kMaxRungs) :
    keptQps (payloads ++ [p]) = keptQps payloads ++ [q] := by
  have all : keptQps payloads = (patchQps payloads).eraseDups := by
    rw [keptQps, List.length_take] at room
    exact List.take_of_length_le (by omega)
  rw [all] at fresh room ⊢
  have unseen : q ∉ patchQps payloads := fun seen => fresh (List.mem_eraseDups.mpr seen)
  rw [keptQps, patchQps_append, patched, Option.toList_some, eraseDups_new unseen]
  exact List.take_of_length_le (by rw [List.length_append]; exact room)

theorem Collected.step (collected : Collected payloads rungQp) (p : ModelPayload) :
    Collected (payloads ++ [p]) (collectRung rungQp p) := by
  obtain ⟨ascending, kept⟩ := collected
  have skipped : patchQp p = none → Collected (payloads ++ [p]) rungQp := by
    intro none
    refine ⟨ascending, ?_⟩
    rw [keptQps, patchQps_append, none, Option.toList_none, List.append_nil, ← keptQps]
    exact kept
  unfold collectRung
  by_cases kind : p.kind = kKindQppatch
  · rw [if_neg (not_not.mpr kind)]
    by_cases range : 0 ≤ qppatchQp p.data ∧ qppatchQp p.data ≤ 63
    · have patched : patchQp p = some (qppatchQp p.data) := by
        rw [patchQp, if_pos ⟨kind, range⟩]
      dsimp only
      rw [if_neg (by omega)]
      by_cases full : qppatchQp p.data ∈ rungQp ∨ rungQp.length ≥ kMaxRungs
      · rw [if_pos full]
        refine ⟨ascending, ?_⟩
        rw [kept.mem_iff, kept.length_eq] at full
        rw [keptQps_same patched full]
        exact kept
      · rw [if_neg full]
        obtain ⟨fresh, room⟩ := not_or.mp full
        constructor
        · exact insertRung_ascending ascending fresh
        · rw [kept.mem_iff] at fresh
          rw [kept.length_eq] at room
          rw [keptQps_new patched fresh (by omega)]
          exact (insertRung_perm _ rungQp).trans ((kept.cons _).trans (List.perm_append_singleton _ _).symm)
    · dsimp only
      rw [if_pos (by omega)]
      exact skipped (if_neg fun valid => range valid.2)
  · rw [if_pos kind]
    exact skipped (if_neg fun valid => kind valid.1)

/-- **The loop of `collect_rungs`** -/
theorem collected (payloads : List ModelPayload) : Collected payloads (payloads.foldl collectRung []) := by
  induction payloads using List.reverseRecOn with
  | nil => exact ⟨.nil, .refl _⟩
  | append_singleton payloads p ih =>
    rw [List.foldl_append]
    exact ih.step p

theorem mem_patchQps : q ∈ patchQps payloads ↔ ∃ p ∈ payloads, patchQp p = some q := List.mem_filterMap

theorem patchQp_range (patched : patchQp p = some q) : 0 ≤ q ∧ q ≤ 63 := by
  unfold patchQp at patched
  split at patched
  · rename_i valid
    cases patched
    exact valid.2
  · cases patched

theorem patchQps_range : ∀ q ∈ patchQps payloads, 0 ≤ q ∧ q ≤ 63 := by
  intro q listed
  obtain ⟨p, -, patched⟩ := mem_patchQps.mp listed
  exact patchQp_range patched

theorem keptQps_subset : keptQps payloads ⊆ patchQps payloads :=
  fun _ listed => List.mem_eraseDups.mp (List.mem_of_mem_take listed)

theorem keptQps_nil : keptQps payloads = [] ↔ patchQps payloads = [] := by
  constructor
  · intro none
    apply List.eq_nil_iff_forall_not_mem.mpr
    intro q listed
    have found := List.mem_eraseDups.mpr listed
    rw [keptQps, List.take_eq_nil_iff] at none
    rcases none with zero | none
    · exact absurd zero (by decide)
    · rw [none] at found
      exact List.not_mem_nil found
  · intro none
    rw [keptQps, none]
    rfl

/-- Where there are no more than are kept, all are. -/
theorem keptQps_all (few : (patchQps payloads).eraseDups.length ≤ kMaxRungs) :
    q ∈ keptQps payloads ↔ q ∈ patchQps payloads := by
  rw [keptQps, List.take_of_length_le few, List.mem_eraseDups]

end Collect

section Select

variable {model model' : Model} {sessionQp : Int} {rungs : List Int}

/-- Without a valid patch, the session's QP is the only rung. -/
theorem collectRungs_none (none : patchQps model.payloads = []) : collectRungs model sessionQp = .ok [sessionQp] := by
  have kept := (collected model.payloads).kept
  rw [keptQps_nil.mpr none] at kept
  rw [collectRungs, kept.eq_nil]
  rfl

/-- With one, the session's QP has to be among those that were kept. -/
theorem collectRungs_some (some : patchQps model.payloads ≠ []) :
    collectRungs model sessionQp =
      if sessionQp ∈ keptQps model.payloads then .ok (model.payloads.foldl collectRung [])
      else Result.reject .format "bind" "rungs" "session qp missing from rung set" := by
  have kept := (collected model.payloads).kept
  have filled : ¬(model.payloads.foldl collectRung []).isEmpty := by
    rw [List.isEmpty_iff]
    intro none
    rw [none] at kept
    exact some (keptQps_nil.mp kept.symm.eq_nil)
  rw [collectRungs, if_neg filled]
  apply if_congr kept.mem_iff rfl rfl

/-- **What `collect_rungs` selects** for a session. -/
structure RungsSelected (model : Model) (sessionQp : Int) : Prop where
  ascending : ∀ rungs, collectRungs model sessionQp = .ok rungs → rungs.Pairwise (· < ·)
  few : ∀ rungs, collectRungs model sessionQp = .ok rungs → rungs.length ≤ kMaxRungs
  range : patchQps model.payloads ≠ [] →
    ∀ rungs, collectRungs model sessionQp = .ok rungs → ∀ q ∈ rungs, 0 ≤ q ∧ q ≤ 63
  rungs : patchQps model.payloads ≠ [] →
    ∀ rungs, collectRungs model sessionQp = .ok rungs → sessionQp ∈ rungs ∧ ∀ q, q ∈ rungs ↔ q ∈ keptQps model.payloads
  succeeds : patchQps model.payloads ≠ [] →
    ((∃ rungs, collectRungs model sessionQp = .ok rungs) ↔ sessionQp ∈ keptQps model.payloads)
  alone : patchQps model.payloads = [] → collectRungs model sessionQp = .ok [sessionQp]
  /-- With no more QPs than are kept, every valid patch counts, -/
  complete : (patchQps model.payloads).eraseDups.length ≤ kMaxRungs → patchQps model.payloads ≠ [] →
    ((∃ rungs, collectRungs model sessionQp = .ok rungs) ↔ ∃ p ∈ model.payloads, patchQp p = some sessionQp)
  /-- and the order of the payloads does not. -/
  unordered : (patchQps model.payloads).eraseDups.length ≤ kMaxRungs →
    ∀ model' : Model, model'.payloads.Perm model.payloads → collectRungs model' sessionQp = collectRungs model sessionQp

/-- Two sorted sets of rungs of the same QPs are the same. -/
theorem Collected.unique {payloads payloads' : List ModelPayload} {rungQp rungQp' : List Int}
    (first : Collected payloads rungQp) (second : Collected payloads' rungQp')
    (same : ∀ q, q ∈ keptQps payloads ↔ q ∈ keptQps payloads') : rungQp = rungQp' := by
  have distinct : ∀ {l : List Int}, l.Pairwise (· < ·) → l.Nodup := fun sorted => sorted.imp fun lt => Int.ne_of_lt lt
  have perm : rungQp.Perm rungQp' := by
    rw [List.perm_ext_iff_of_nodup (distinct first.ascending) (distinct second.ascending)]
    intro q
    rw [first.kept.mem_iff, second.kept.mem_iff, same q]
  exact perm.eq_of_pairwise' first.ascending second.ascending

/-- The order of few payloads does not matter. -/
theorem collectRungs_perm (few : (patchQps model.payloads).eraseDups.length ≤ kMaxRungs)
    (perm : model'.payloads.Perm model.payloads) : collectRungs model' sessionQp = collectRungs model sessionQp := by
  have qps : (patchQps model'.payloads).Perm (patchQps model.payloads) := perm.filterMap patchQp
  have number : (patchQps model'.payloads).eraseDups.length = (patchQps model.payloads).eraseDups.length := by
    apply List.Perm.length_eq
    rw [List.perm_ext_iff_of_nodup (nodup_eraseDups _) (nodup_eraseDups _)]
    intro q
    rw [List.mem_eraseDups, List.mem_eraseDups, qps.mem_iff]
  have same : ∀ q, q ∈ keptQps model'.payloads ↔ q ∈ keptQps model.payloads := by
    intro q
    rw [keptQps_all (by omega), keptQps_all few, qps.mem_iff]
  have set := (collected model'.payloads).unique (collected model.payloads) same
  rw [collectRungs, collectRungs, set]

/-- **The rungs of a bundle**: the first `kMaxRungs` QPs of its valid patches, sorted. -/
theorem collectRungs_selects (model : Model) (sessionQp : Int) : RungsSelected model sessionQp := by
  have set := collected model.payloads
  have listed : patchQps model.payloads ≠ [] → ∀ rungs, collectRungs model sessionQp = .ok rungs →
      sessionQp ∈ keptQps model.payloads ∧ rungs = model.payloads.foldl collectRung [] := by
    intro some rungs selected
    rw [collectRungs_some some] at selected
    split at selected
    · rename_i kept
      cases selected
      exact ⟨kept, rfl⟩
    · cases selected
  have one : patchQps model.payloads = [] → ∀ rungs, collectRungs model sessionQp = .ok rungs → rungs = [sessionQp] := by
    intro none rungs selected
    rw [collectRungs_none none] at selected
    cases selected
    rfl
  have succeeds : patchQps model.payloads ≠ [] →
      ((∃ rungs, collectRungs model sessionQp = .ok rungs) ↔ sessionQp ∈ keptQps model.payloads) := by
    intro some
    constructor
    · rintro ⟨rungs, selected⟩
      exact (listed some rungs selected).1
    · intro kept
      rw [collectRungs_some some, if_pos kept]
      exact ⟨_, rfl⟩
  constructor
  case ascending =>
    intro rungs selected
    by_cases none : patchQps model.payloads = []
    · rw [one none rungs selected]
      exact List.pairwise_singleton _ _
    · rw [(listed none rungs selected).2]
      exact set.ascending
  case few =>
    intro rungs selected
    by_cases none : patchQps model.payloads = []
    · rw [one none rungs selected, List.length_singleton]
      decide
    · rw [(listed none rungs selected).2, set.kept.length_eq]
      exact List.length_take_le _ _
  case range =>
    intro some rungs selected q there
    rw [(listed some rungs selected).2, set.kept.mem_iff] at there
    exact patchQps_range q (keptQps_subset there)
  case rungs =>
    intro some rungs selected
    obtain ⟨kept, rfl⟩ := listed some rungs selected
    exact ⟨set.kept.mem_iff.mpr kept, fun q => set.kept.mem_iff⟩
  case succeeds => exact succeeds
  case alone => exact collectRungs_none
  case complete =>
    intro few some
    rw [succeeds some, keptQps_all few, mem_patchQps]
  case unordered => exact fun few model' => collectRungs_perm few

end Select

/-- A patch of a QP without ranges. -/
def patchOf (qp : Nat) : ModelPayload where
  kind := kKindQppatch
  data := qppMagic ++ List.replicate 12 0 ++ Lib.leBytes 4 qp ++ List.replicate 28 0

def patchBundle (qps : List Nat) : Model := { role := "encoder", payloads := qps.map patchOf }

/-- **Of nine patches one is left out**, another one in another order, and its QP is refused. -/
theorem collectRungs_ordered :
    collectRungs (patchBundle [0, 1, 2, 3, 4, 5, 6, 7, 8]) 4 = .ok [0, 1, 2, 3, 4, 5, 6, 7] ∧
      collectRungs (patchBundle [8, 7, 6, 5, 4, 3, 2, 1, 0]) 4 = .ok [1, 2, 3, 4, 5, 6, 7, 8] ∧
      patchQp (patchOf 8) = some 8 ∧
      collectRungs (patchBundle [0, 1, 2, 3, 4, 5, 6, 7, 8]) 8 =
        Result.reject .format "bind" "rungs" "session qp missing from rung set" := by
  refine ⟨?_, ?_, ?_, ?_⟩
  · decide +kernel
  · decide +kernel
  · decide +kernel
  · decide +kernel

end Rkvc.Mlvc
