import Rkvc.Core.Frame

/-!
# Regions of interest

`Frame::set_roi` looks at a caller's regions one by one and keeps them in the
frame. It copies each region as soon as it has looked at it, so a call that is
refused half way leaves the first regions behind.
-/

namespace Rkvc
set_option autoImplicit false

def kRoiMaxRegions : Nat := 8

structure RoiRegion where
  x : UInt32 := 0
  y : UInt32 := 0
  width : UInt32 := 0
  height : UInt32 := 0
  qpDelta : Int16 := 0
  forceIntra : Bool := false
  deriving DecidableEq, Repr

/-- What a frame keeps of its regions, `roi_` and `roi_count_`. -/
structure RoiTable where
  regions : Vector RoiRegion kRoiMaxRegions := Vector.replicate _ {}
  count : Nat := 0
  fits : count ≤ kRoiMaxRegions := by decide

namespace RoiTable

/-- The regions that a reader of the frame sees. -/
def shown (t : RoiTable) : List RoiRegion := t.regions.toList.take t.count

end RoiTable

/-- The checks of one region; the sums are those of `uint32_t`. -/
def refuseRegion (spec : Spec) (r : RoiRegion) : Option String :=
  if r.qpDelta.toInt < -51 ∨ 51 < r.qpDelta.toInt then some "roi qp_delta out of range"
  else if spec.width ≠ 0 ∧ spec.height ≠ 0 ∧
      (spec.width < (r.x + r.width).toNat ∨ spec.height < (r.y + r.height).toNat) then
    some "roi region out of frame"
  else none

/-- The loop of `set_roi` from region `i` on. -/
def setRoiLoop (spec : Spec) : List RoiRegion → Nat → Vector RoiRegion kRoiMaxRegions →
    Vector RoiRegion kRoiMaxRegions × Option String
  | [], _, table => (table, none)
  | r :: rest, i, table =>
    match refuseRegion spec r with
    | some reason => (table, some reason)
    | none => setRoiLoop spec rest (i + 1) (table.setIfInBounds i r)

/-- **`Frame::set_roi`**: `none` is the null pointer. -/
def setRoi (spec : Spec) (t : RoiTable) {count : Nat} (regions : Option (Vector RoiRegion count)) :
    RoiTable × Result Unit :=
  let reject reason := Result.reject .invalid "wrap" "roi" reason
  if few : count ≤ kRoiMaxRegions then
    if count ≠ 0 ∧ regions.isNone then (t, reject "null roi regions")
    else
      match setRoiLoop spec (regions.elim [] Vector.toList) 0 t.regions with
      | (table, some reason) => ({ t with regions := table }, reject reason)
      | (table, none) => ({ regions := table, count, fits := few }, .ok ())
  else (t, reject "too many roi regions")

theorem setRoiLoop_stop {spec : Spec} {r : RoiRegion} {reason : String} (refused : refuseRegion spec r = some reason)
    (rest : List RoiRegion) (i : Nat) (table : Vector RoiRegion kRoiMaxRegions) :
    setRoiLoop spec (r :: rest) i table = (table, some reason) := by
  simp only [setRoiLoop, refused]

theorem setRoiLoop_next {spec : Spec} {r : RoiRegion} (admitted : refuseRegion spec r = none)
    (rest : List RoiRegion) (i : Nat) (table : Vector RoiRegion kRoiMaxRegions) :
    setRoiLoop spec (r :: rest) i table = setRoiLoop spec rest (i + 1) (table.setIfInBounds i r) := by
  simp only [setRoiLoop, admitted]

/-- A loop that ends without a reason has admitted every region, and stored them in a row. -/
theorem setRoiLoop_admits {spec : Spec} {table : Vector RoiRegion kRoiMaxRegions} :
    ∀ {regions : List RoiRegion} {i : Nat} {before : Vector RoiRegion kRoiMaxRegions},
      setRoiLoop spec regions i before = (table, none) → i + regions.length ≤ kRoiMaxRegions →
      (∀ r ∈ regions, refuseRegion spec r = none) ∧
        table.toList.take (i + regions.length) = before.toList.take i ++ regions
  | [], i, before, ran, _ => by
    obtain rfl : before = table := (Prod.ext_iff.mp ran).1
    simp
  | r :: rest, i, before, ran, room => by
    rw [List.length_cons] at room
    cases refused : refuseRegion spec r with
    | some reason =>
      rw [setRoiLoop_stop refused] at ran
      cases ran
    | none =>
      rw [setRoiLoop_next refused] at ran
      obtain ⟨admitted, stored⟩ := setRoiLoop_admits ran (by omega)
      constructor
      · intro q hq
        rcases List.mem_cons.mp hq with rfl | later
        · exact refused
        · exact admitted q later
      · have inside : i < before.toList.length := by
          rw [Vector.length_toList]
          omega
        have next : (before.setIfInBounds i r).toList.take (i + 1) = before.toList.take i ++ [r] := by
          rw [Vector.toList_setIfInBounds, List.take_add_one, List.take_set_of_le (Nat.le_refl i),
            List.getElem?_set_self inside]
          rfl
        rw [List.length_cons, show i + (rest.length + 1) = i + 1 + rest.length by omega, stored, next,
          List.append_assoc]
        rfl

/-- **What `set_roi` accepts** has passed the checks, and is what the frame shows. -/
theorem setRoi_ok {spec : Spec} {t t' : RoiTable} {count : Nat} {regions : Option (Vector RoiRegion count)}
    (accepted : setRoi spec t regions = (t', .ok ())) :
    count ≤ kRoiMaxRegions ∧ t'.count = count ∧ t'.shown = regions.elim [] Vector.toList ∧
      ∀ r ∈ regions.elim [] Vector.toList, refuseRegion spec r = none := by
  unfold setRoi at accepted
  dsimp only at accepted
  by_cases few : count ≤ kRoiMaxRegions
  · rw [dif_pos few] at accepted
    by_cases missing : count ≠ 0 ∧ regions.isNone
    · rw [if_pos missing] at accepted
      cases accepted
    · rw [if_neg missing] at accepted
      have whole : (regions.elim [] Vector.toList).length = count := by
        cases regions with
        | none =>
          have empty : count = 0 := by simpa using missing
          simp [empty]
        | some v => simp
      cases ran : setRoiLoop spec (regions.elim [] Vector.toList) 0 t.regions with
      | mk table refused =>
        rw [ran] at accepted
        cases refused with
        | some reason => cases accepted
        | none =>
          obtain ⟨rfl, -⟩ := Prod.ext_iff.mp accepted
          obtain ⟨admitted, stored⟩ := setRoiLoop_admits ran (by omega)
          refine ⟨few, rfl, ?_, admitted⟩
          rw [Nat.zero_add, whole] at stored
          simpa [RoiTable.shown] using stored
  · rw [dif_neg few] at accepted
    cases accepted

/-- At every place the loop leaves what was there, or a region that has passed the checks. -/
theorem setRoiLoop_at (spec : Spec) {j : Nat} (hj : j < kRoiMaxRegions) :
    ∀ (regions : List RoiRegion) (i : Nat) (before : Vector RoiRegion kRoiMaxRegions),
      (setRoiLoop spec regions i before).1[j] = before[j] ∨
        refuseRegion spec (setRoiLoop spec regions i before).1[j] = none
  | [], _, _ => Or.inl rfl
  | r :: rest, i, before => by
    cases refused : refuseRegion spec r with
    | some reason =>
      left
      simp only [setRoiLoop_stop refused]
    | none =>
      simp only [setRoiLoop_next refused]
      rcases setRoiLoop_at spec hj rest (i + 1) (before.setIfInBounds i r) with same | admitted
      · by_cases here : i = j
        · subst here
          rw [Vector.getElem_setIfInBounds_self] at same
          right
          rw [same]
          exact refused
        · rw [Vector.getElem_setIfInBounds_ne hj here] at same
          exact Or.inl same
      · exact Or.inr admitted

/-- The regions that a frame shows have passed the checks of its specification. -/
def RoiTable.Admitted (spec : Spec) (t : RoiTable) : Prop :=
  ∀ (j : Nat) (hj : j < kRoiMaxRegions), j < t.count → refuseRegion spec t.regions[j] = none

/-- **A refused call** may change the regions of a frame, but only to others that are admitted. -/
theorem setRoi_admitted {spec : Spec} {t : RoiTable} {count : Nat} (regions : Option (Vector RoiRegion count))
    (before : t.Admitted spec) : (setRoi spec t regions).1.Admitted spec := by
  cases outcome : setRoi spec t regions with
  | mk after result =>
  cases result with
  | ok _ =>
    obtain ⟨few, counted, shown, admitted⟩ := setRoi_ok outcome
    intro j hj inside
    apply admitted
    rw [← shown]
    have place : after.shown[j]? = some after.regions[j] := by
      simp [RoiTable.shown, inside, hj]
    exact List.mem_of_getElem? place
  | error _ =>
    unfold setRoi at outcome
    dsimp only at outcome
    split at outcome
    · split at outcome
      · obtain rfl : t = after := (Prod.ext_iff.mp outcome).1
        exact before
      · cases ran : setRoiLoop spec (regions.elim [] Vector.toList) 0 t.regions with
        | mk table refused =>
          rw [ran] at outcome
          cases refused with
          | none => cases outcome
          | some reason =>
            obtain rfl : { t with regions := table } = after := (Prod.ext_iff.mp outcome).1
            intro j hj inside
            rcases setRoiLoop_at spec hj (regions.elim [] Vector.toList) 0 t.regions with same | admitted
            · rw [ran] at same
              dsimp only at same ⊢
              rw [same]
              exact before j hj inside
            · rw [ran] at admitted
              exact admitted
    · obtain rfl : t = after := (Prod.ext_iff.mp outcome).1
      exact before

/-! ## What a call promises -/

/-- The list that a call is given. -/
def givenRoi {count : Nat} (regions : Option (Vector RoiRegion count)) : List RoiRegion := regions.elim [] Vector.toList

/-- A region inside the frame, in whole numbers, with an offset in range. -/
structure RoiInside (spec : Spec) (r : RoiRegion) : Prop where
  right : r.x.toNat + r.width.toNat ≤ spec.width
  bottom : r.y.toNat + r.height.toNat ≤ spec.height
  qpDelta : -51 ≤ r.qpDelta.toInt ∧ r.qpDelta.toInt ≤ 51

/-- **A call that stores what it has checked, or nothing.** -/
structure SetRoiSound (spec : Spec) (t : RoiTable) {count : Nat} (regions : Option (Vector RoiRegion count)) : Prop where
  stored : ∀ t', setRoi spec t regions = (t', .ok ()) → t'.shown = givenRoi regions
  inside : ∀ t', setRoi spec t regions = (t', .ok ()) → spec.width ≠ 0 → spec.height ≠ 0 →
    ∀ r ∈ t'.shown, RoiInside spec r
  refused : ∀ t' e, setRoi spec t regions = (t', .error e) → t'.shown = t.shown

/-- The sums of a region fit `uint32_t`. -/
def RoiRegion.Unwrapped (r : RoiRegion) : Prop :=
  r.x.toNat + r.width.toNat < 2 ^ 32 ∧ r.y.toNat + r.height.toNat < 2 ^ 32

instance (r : RoiRegion) : Decidable r.Unwrapped := inferInstanceAs (Decidable (_ ∧ _))

/-- The regions in front of the first that is refused. -/
def admittedFront (spec : Spec) (given : List RoiRegion) : List RoiRegion :=
  given.takeWhile fun r => (refuseRegion spec r).isNone

/-- No sum wraps where every region is admitted; where one is refused, those in front of it are
already shown at their places. -/
structure SetRoiSafe (spec : Spec) (t : RoiTable) (given : List RoiRegion) : Prop where
  unwrapped : (∀ r ∈ given, refuseRegion spec r = none) → spec.width ≠ 0 → spec.height ≠ 0 →
    ∀ r ∈ given, r.Unwrapped
  shown : (∃ r ∈ given, refuseRegion spec r ≠ none) →
    (admittedFront spec given).take t.count = t.shown.take (admittedFront spec given).length

section Sound
variable {spec : Spec} {t t' : RoiTable} {count : Nat} {regions : Option (Vector RoiRegion count)}

theorem refuseRegion_none {r : RoiRegion} (admitted : refuseRegion spec r = none) :
    (-51 ≤ r.qpDelta.toInt ∧ r.qpDelta.toInt ≤ 51) ∧
      (spec.width ≠ 0 → spec.height ≠ 0 →
        (r.x + r.width).toNat ≤ spec.width ∧ (r.y + r.height).toNat ≤ spec.height) := by
  unfold refuseRegion at admitted
  split at admitted
  · cases admitted
  · rename_i range
    split at admitted
    · cases admitted
    · rename_i fits
      constructor
      · omega
      · intro width height
        constructor
        · apply Nat.le_of_not_lt
          exact fun outside => fits ⟨width, height, Or.inl outside⟩
        · apply Nat.le_of_not_lt
          exact fun outside => fits ⟨width, height, Or.inr outside⟩

/-- An admitted region lies in the frame exactly where its sums do not wrap. -/
theorem inside_iff {r : RoiRegion} (w32 : spec.width < 2 ^ 32) (h32 : spec.height < 2 ^ 32) (width : spec.width ≠ 0)
    (height : spec.height ≠ 0) (admitted : refuseRegion spec r = none) : RoiInside spec r ↔ r.Unwrapped := by
  obtain ⟨range, sums⟩ := refuseRegion_none admitted
  have fits := sums width height
  rw [UInt32.toNat_add, UInt32.toNat_add] at fits
  constructor
  · intro inside
    exact ⟨Nat.lt_of_le_of_lt inside.right w32, Nat.lt_of_le_of_lt inside.bottom h32⟩
  · rintro ⟨right, bottom⟩
    rw [Nat.mod_eq_of_lt right, Nat.mod_eq_of_lt bottom] at fits
    exact ⟨fits.1, fits.2, range⟩

/-- **What the loop leaves**: the admitted front in a row, and the rest as it was. -/
theorem setRoiLoop_leaves (spec : Spec) :
    ∀ (given : List RoiRegion) (i : Nat) (before : Vector RoiRegion kRoiMaxRegions),
      i + given.length ≤ kRoiMaxRegions →
      (setRoiLoop spec given i before).1.toList =
        before.toList.take i ++ (admittedFront spec given ++ before.toList.drop (i + (admittedFront spec given).length)) ∧
      ((setRoiLoop spec given i before).2 = none ↔ ∀ r ∈ given, refuseRegion spec r = none)
  | [], i, before, _ => by
    constructor
    · exact (List.take_append_drop i before.toList).symm
    · exact iff_of_true rfl fun r listed => absurd listed List.not_mem_nil
  | r :: rest, i, before, room => by
    rw [List.length_cons] at room
    cases refused : refuseRegion spec r with
    | some reason =>
      have front : admittedFront spec (r :: rest) = [] := by
        rw [admittedFront, List.takeWhile_cons, refused]
        rfl
      rw [setRoiLoop_stop refused, front]
      constructor
      · exact (List.take_append_drop i before.toList).symm
      · refine iff_of_false nofun fun all => ?_
        rw [all r List.mem_cons_self] at refused
        cases refused
    | none =>
      have front : admittedFront spec (r :: rest) = r :: admittedFront spec rest := by
        rw [admittedFront, List.takeWhile_cons, refused]
        rfl
      have inside : i < before.toList.length := by
        rw [Vector.length_toList]
        omega
      obtain ⟨left, outcome⟩ := setRoiLoop_leaves spec rest (i + 1) (before.setIfInBounds i r) (by omega)
      rw [setRoiLoop_next refused, front]
      constructor
      · have behind : (before.setIfInBounds i r).toList.drop (i + 1 + (admittedFront spec rest).length) =
            before.toList.drop (i + (r :: admittedFront spec rest).length) := by
          rw [Vector.toList_setIfInBounds, List.drop_set, if_pos (by omega), List.length_cons]
          congr 1
          omega
        have next : (before.setIfInBounds i r).toList.take (i + 1) = before.toList.take i ++ [r] := by
          rw [Vector.toList_setIfInBounds, List.take_add_one, List.take_set_of_le (Nat.le_refl i),
            List.getElem?_set_self inside]
          rfl
        rw [left, behind, next, List.append_assoc]
        rfl
      · rw [outcome, List.forall_mem_cons]
        exact (and_iff_right refused).symm

theorem givenRoi_length (there : ¬(count ≠ 0 ∧ regions.isNone)) : (givenRoi regions).length = count := by
  cases regions with
  | none =>
    have empty : count = 0 := by simpa using there
    simp [givenRoi, empty]
  | some v => simp [givenRoi]

/-- A call that is refused before its loop shows what was shown. -/
theorem setRoi_early {e : Failure} (early : ¬(count ≤ kRoiMaxRegions) ∨ count ≠ 0 ∧ regions.isNone)
    (outcome : setRoi spec t regions = (t', .error e)) : t' = t := by
  unfold setRoi at outcome
  dsimp only at outcome
  rcases early with many | missing
  · rw [dif_neg many] at outcome
    exact (Prod.ext_iff.mp outcome).1.symm
  · by_cases few : count ≤ kRoiMaxRegions
    · rw [dif_pos few, if_pos missing] at outcome
      exact (Prod.ext_iff.mp outcome).1.symm
    · rw [dif_neg few] at outcome
      exact (Prod.ext_iff.mp outcome).1.symm

variable (spec t) in
/-- What a call with its regions leaves. -/
theorem setRoi_leaves (few : count ≤ kRoiMaxRegions) (there : ¬(count ≠ 0 ∧ regions.isNone)) :
    ((∀ r ∈ givenRoi regions, refuseRegion spec r = none) ∧ (setRoi spec t regions).2 = .ok ()) ∨
    ((∃ r ∈ givenRoi regions, refuseRegion spec r ≠ none) ∧ (∃ e, (setRoi spec t regions).2 = .error e) ∧
      (setRoi spec t regions).1.count = t.count ∧
      (setRoi spec t regions).1.regions.toList =
        admittedFront spec (givenRoi regions) ++ t.regions.toList.drop (admittedFront spec (givenRoi regions)).length) := by
  obtain ⟨left, outcome⟩ := setRoiLoop_leaves spec (givenRoi regions) 0 t.regions
    (by rw [givenRoi_length there]; omega)
  have called : setRoi spec t regions =
      match setRoiLoop spec (givenRoi regions) 0 t.regions with
      | (table, some reason) => ({ t with regions := table }, Result.reject .invalid "wrap" "roi" reason)
      | (table, none) => ({ regions := table, count, fits := few }, .ok ()) := by
    unfold setRoi
    dsimp only
    rw [dif_pos few, if_neg there]
    rfl
  rw [called]
  cases ran : setRoiLoop spec (givenRoi regions) 0 t.regions with
  | mk table refused =>
    rw [ran] at left outcome
    cases refused with
    | none => exact Or.inl ⟨outcome.mp rfl, rfl⟩
    | some reason =>
      right
      refine ⟨?_, ⟨_, rfl⟩, rfl, ?_⟩
      · have some : ¬∀ r ∈ givenRoi regions, refuseRegion spec r = none := fun all => nomatch outcome.mpr all
        simpa using some
      · rw [left, List.take_zero, List.nil_append, Nat.zero_add]

/-- A front in a row changes the first places unless it is what stood there. -/
theorem take_front {α : Type} (front l : List α) (n : Nat) :
    (front ++ l.drop front.length).take n = l.take n ↔ front.take n = (l.take n).take front.length := by
  have split : l.take n = (l.take n).take front.length ++ (l.drop front.length).take (n - front.length) := by
    rw [← List.drop_take, List.take_append_drop]
  rw [List.take_append]
  constructor
  · intro same
    rw [split] at same
    exact List.append_cancel_right same
  · intro same
    rw [split, ← same]

/-- **`set_roi` is sound exactly where** no sum of an accepted region wraps, and a refused list begins
with what is shown. -/
theorem setRoi_sound_iff (w32 : spec.width < 2 ^ 32) (h32 : spec.height < 2 ^ 32) :
    SetRoiSound spec t regions ↔
      (count ≤ kRoiMaxRegions → ¬(count ≠ 0 ∧ regions.isNone) → SetRoiSafe spec t (givenRoi regions)) := by
  constructor
  · intro sound few there
    constructor
    · intro admitted width height r listed
      rcases setRoi_leaves spec t few there with ⟨-, accepted⟩ | ⟨⟨r', listed', refused⟩, -⟩
      · have outcome : setRoi spec t regions = ((setRoi spec t regions).1, .ok ()) := Prod.ext rfl accepted
        have shown := sound.stored _ outcome
        have inside := sound.inside _ outcome width height r (by rw [shown]; exact listed)
        exact (inside_iff w32 h32 width height (admitted r listed)).mp inside
      · exact absurd (admitted r' listed') refused
    · rintro ⟨r, listed, refused⟩
      rcases setRoi_leaves spec t few there with ⟨admitted, -⟩ | ⟨-, ⟨e, failed⟩, counted, left⟩
      · exact absurd (admitted r listed) refused
      · have outcome : setRoi spec t regions = ((setRoi spec t regions).1, .error e) := Prod.ext rfl failed
        have shown := sound.refused _ e outcome
        rw [RoiTable.shown, RoiTable.shown, counted, left] at shown
        exact (take_front _ _ _).mp shown
  · intro safe
    constructor
    · intro t' accepted
      exact (setRoi_ok accepted).2.2.1
    · intro t' accepted width height r listed
      obtain ⟨few, -, shown, admitted⟩ := setRoi_ok accepted
      rw [shown] at listed
      have there : ¬(count ≠ 0 ∧ regions.isNone) := by
        intro missing
        unfold setRoi at accepted
        dsimp only at accepted
        rw [dif_pos few, if_pos missing] at accepted
        cases accepted
      exact (inside_iff w32 h32 width height (admitted r listed)).mpr
        ((safe few there).unwrapped admitted width height r listed)
    · intro t' e failed
      by_cases early : ¬(count ≤ kRoiMaxRegions) ∨ count ≠ 0 ∧ regions.isNone
      · rw [setRoi_early early failed]
      · simp only [not_or, Decidable.not_not] at early
        obtain ⟨few, there⟩ := early
        rcases setRoi_leaves spec t few there with ⟨-, accepted⟩ | ⟨some, -, counted, left⟩
        · rw [failed] at accepted
          cases accepted
        · rw [failed] at counted left
          rw [RoiTable.shown, RoiTable.shown, counted, left]
          exact (take_front _ _ _).mpr ((safe few there).shown some)

end Sound

/-- A call of two regions that keeps its promise. -/
theorem setRoi_sound_pair :
    SetRoiSound { width := 640, height := 480, fmt := .nv12 } {}
      (some #v[{ x := 10, y := 20, width := 100, height := 60, qpDelta := -8 }, { x := 600, y := 0, width := 40 }]) := by
  apply (setRoi_sound_iff (by decide) (by decide)).mpr
  intro _ _
  constructor
  · intro _ _ _
    decide
  · intro some
    exact absurd some (by decide)

/-- **Two calls that break it**: a region whose sum wraps is stored, and a call that is refused leaves
its first region where another was shown. -/
theorem setRoi_unsound :
    ¬SetRoiSound { width := 640, height := 480, fmt := .nv12 } {}
        (some #v[{ x := 0xFFFFFFF0, y := 0, width := 0x20, height := 16 }]) ∧
      ¬SetRoiSound { width := 640, height := 480, fmt := .nv12 }
        { regions := (Vector.replicate _ {}).set 0 { width := 64, height := 64 }, count := 1 }
        (some #v[{ width := 32, height := 32 }, { qpDelta := 52 }]) := by
  constructor
  · intro sound
    have inside := sound.inside _ rfl (by decide) (by decide) { x := 0xFFFFFFF0, y := 0, width := 0x20, height := 16 }
      List.mem_cons_self
    exact absurd inside.right (by decide)
  · intro sound
    have same := sound.refused _ _ rfl
    exact absurd same (by decide)

end Rkvc
