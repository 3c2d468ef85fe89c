import Mathlib.Data.List.Induction
import Mathlib.Data.List.Nodup
import Mathlib.Data.List.Perm.Basic

/-!
# Lists without two elements of one key

An element joins such a list only if its key is new to it, and a group of
elements joins it whole or not at all. What is there after a sequence of groups
depends on their order exactly when two groups that could join compete for a key.
-/

namespace Rkvc.Lib.Keyed
set_option autoImplicit false

variable {α κ : Type} [DecidableEq κ] {key : α → κ}

variable (key) in
def lookup (k : κ) (l : List α) : Option α := l.find? (key · = k)

variable (key) in
def Distinct (l : List α) : Prop := (l.map key).Nodup

variable (key) in
/-- The keys of a group are new to the list. -/
def Fresh (l g : List α) : Prop := ∀ a ∈ g, lookup key (key a) l = none

variable (key) in
def join (l : List α) (a : α) : List α := if (lookup key (key a) l).isSome then l else l ++ [a]

variable (key) in
def joinAll (l g : List α) : List α := g.foldl (join key) l

instance (l g : List α) : Decidable (Fresh key l g) := inferInstanceAs (Decidable (∀ a ∈ g, _))

variable (key) in
/-- A group joins whole, or not at all. -/
def absorb (l g : List α) : List α := if Fresh key l g then joinAll key l g else l

variable (key) in
def absorbAll (l : List α) (gs : List (List α)) : List α := gs.foldl (absorb key) l

theorem lookup_some {k : κ} {l : List α} {a : α} (found : lookup key k l = some a) : a ∈ l ∧ key a = k := by
  constructor
  · exact List.mem_of_find?_eq_some found
  · simpa using List.find?_some found

theorem lookup_none {k : κ} {l : List α} : lookup key k l = none ↔ ∀ a ∈ l, key a ≠ k := by
  simp [lookup]

theorem lookup_isSome {l : List α} {a : α} (ha : a ∈ l) : ∃ b, lookup key (key a) l = some b := by
  cases found : lookup key (key a) l with
  | some b => exact ⟨b, rfl⟩
  | none => exact absurd rfl (lookup_none.mp found a ha)

omit [DecidableEq κ] in
/-- Elements of one key are one element. -/
theorem Distinct.eq {l : List α} (distinct : Distinct key l) {a b : α} (ha : a ∈ l) (hb : b ∈ l)
    (same : key a = key b) : a = b :=
  List.inj_on_of_nodup_map distinct ha hb same

theorem Distinct.lookup {l : List α} (distinct : Distinct key l) {a : α} (ha : a ∈ l) :
    lookup key (key a) l = some a := by
  obtain ⟨b, found⟩ : ∃ b, Keyed.lookup key (key a) l = some b := lookup_isSome ha
  obtain ⟨hb, same⟩ := lookup_some found
  rw [found, distinct.eq hb ha same]

omit [DecidableEq κ] in
/-- Two such lists with the same elements differ in the order alone. -/
theorem Distinct.perm {l l' : List α} (distinct : Distinct key l) (distinct' : Distinct key l')
    (same : ∀ a, a ∈ l ↔ a ∈ l') : l.Perm l' :=
  (List.perm_ext_iff_of_nodup (List.Nodup.of_map _ distinct) (List.Nodup.of_map _ distinct')).mpr same

/-! ## One element -/

theorem join_fresh {l : List α} {a : α} (fresh : lookup key (key a) l = none) : join key l a = l ++ [a] := by
  unfold join
  rw [fresh]
  rfl

theorem join_known {l : List α} {a b : α} (known : lookup key (key a) l = some b) : join key l a = l := by
  unfold join
  rw [known]
  rfl

theorem Distinct.join {l : List α} (distinct : Distinct key l) (a : α) : Distinct key (join key l a) := by
  cases found : Keyed.lookup key (key a) l with
  | some b =>
    rw [join_known found]
    exact distinct
  | none =>
    rw [join_fresh found]
    unfold Distinct
    rw [List.map_append, List.map_singleton]
    apply List.Nodup.append distinct (List.nodup_singleton _)
    intro k known new
    obtain ⟨b, hb, rfl⟩ := List.mem_map.mp known
    exact lookup_none.mp found b hb (List.mem_singleton.mp new)

theorem mem_join {l : List α} {a b : α} :
    b ∈ join key l a ↔ b ∈ l ∨ b = a ∧ lookup key (key a) l = none := by
  cases found : lookup key (key a) l with
  | some c => simp [join_known found]
  | none => simp [join_fresh found]

/-! ## A group -/

theorem Distinct.joinAll {g : List α} : ∀ {l : List α}, Distinct key l → Distinct key (joinAll key l g) := by
  induction g with
  | nil => exact id
  | cons a g ih => exact fun distinct => ih (distinct.join a)

theorem lookup_append (k : κ) (l g : List α) :
    lookup key k (l ++ g) = (lookup key k l).or (lookup key k g) :=
  List.find?_append

theorem lookup_join (k : κ) (l : List α) (a : α) :
    lookup key k (join key l a) = (lookup key k l).or (lookup key k [a]) := by
  cases found : lookup key (key a) l with
  | none => rw [join_fresh found, lookup_append]
  | some b =>
    rw [join_known found]
    by_cases same : key a = k
    · rw [same] at found
      rw [found]
      rfl
    · have single : lookup key k [a] = none := by simp [lookup, same]
      rw [single, Option.or_none]

/-- What was there goes first, then the group. -/
theorem lookup_joinAll (k : κ) {g : List α} :
    ∀ {l : List α}, lookup key k (joinAll key l g) = (lookup key k l).or (lookup key k g) := by
  induction g with
  | nil => simp [joinAll, lookup]
  | cons a g ih =>
    intro l
    change lookup key k (joinAll key (join key l a) g) = _
    rw [ih, lookup_join, Option.or_assoc, ← lookup_append]
    rfl

/-- Of a group, the first element of each new key joins. -/
theorem mem_joinAll {g : List α} {b : α} : ∀ {l : List α},
    b ∈ joinAll key l g ↔ b ∈ l ∨ lookup key (key b) l = none ∧ lookup key (key b) g = some b := by
  induction g with
  | nil => simp [joinAll, lookup]
  | cons a g ih =>
    intro l
    change b ∈ joinAll key (join key l a) g ↔ _
    rw [ih, mem_join]
    have front : lookup key (key b) (a :: g) = if key a = key b then some a else lookup key (key b) g := by
      unfold lookup
      rw [List.find?_cons]
      by_cases same : key a = key b <;> simp [same]
    rw [front]
    cases found : lookup key (key a) l with
    | some c =>
      rw [join_known found]
      by_cases same : key a = key b
      · rw [same] at found
        simp [found]
      · simp [same]
    | none =>
      rw [join_fresh found, lookup_append]
      by_cases same : key a = key b
      · rw [same] at found
        have single : lookup key (key b) [a] = some a := by simp [lookup, same]
        simp [found, single, same, eq_comm]
      · have single : lookup key (key b) [a] = none := by simp [lookup, same]
        have other : b ≠ a := fun h => same (congrArg key h).symm
        simp [single, same, other]

theorem Distinct.absorb {l : List α} (distinct : Distinct key l) (g : List α) :
    Distinct key (absorb key l g) := by
  unfold Keyed.absorb
  split
  · exact distinct.joinAll
  · exact distinct

theorem absorb_fresh {l g : List α} (fresh : Fresh key l g) : absorb key l g = joinAll key l g := by
  unfold absorb
  rw [if_pos fresh]

theorem absorb_known {l g : List α} (known : ¬Fresh key l g) : absorb key l g = l := by
  unfold absorb
  rw [if_neg known]

theorem mem_absorb_of_mem {l g : List α} {a : α} (ha : a ∈ l) : a ∈ absorb key l g := by
  by_cases fresh : Fresh key l g
  · rw [absorb_fresh fresh]
    exact mem_joinAll.mpr (Or.inl ha)
  · rw [absorb_known fresh]
    exact ha

/-! ## A sequence of groups -/

theorem Distinct.absorbAll {gs : List (List α)} :
    ∀ {l : List α}, Distinct key l → Distinct key (absorbAll key l gs) := by
  induction gs with
  | nil => exact id
  | cons g gs ih => exact fun distinct => ih (distinct.absorb g)

theorem absorbAll_append (l : List α) (gs hs : List (List α)) :
    absorbAll key l (gs ++ hs) = absorbAll key (absorbAll key l gs) hs :=
  List.foldl_append

theorem mem_absorbAll_of_mem {gs : List (List α)} {a : α} :
    ∀ {l : List α}, a ∈ l → a ∈ absorbAll key l gs := by
  induction gs with
  | nil => exact id
  | cons g gs ih => exact fun ha => ih (mem_absorb_of_mem ha)

variable (key) in
/-- No two different groups that could join compete for a key. -/
def Peaceful (l : List α) (gs : List (List α)) : Prop :=
  ∀ g ∈ gs, ∀ g' ∈ gs, Fresh key l g → Fresh key l g' → ∀ a ∈ g, ∀ b ∈ g', key a = key b → g = g'

/-- **Without competition every group that could join has joined.** -/
theorem mem_absorbAll {l : List α} {gs : List (List α)} (peace : Peaceful key l gs) {a : α} :
    a ∈ absorbAll key l gs ↔ a ∈ l ∨ ∃ g ∈ gs, Fresh key l g ∧ lookup key (key a) g = some a := by
  induction gs using List.reverseRecOn generalizing a with
  | nil => simp [absorbAll]
  | append_singleton gs g ih =>
    have peace' : Peaceful key l gs := fun h hh h' hh' =>
      peace h (List.mem_append_left _ hh) h' (List.mem_append_left _ hh')
    have last : absorbAll key l (gs ++ [g]) = absorb key (absorbAll key l gs) g := absorbAll_append l gs [g]
    rw [last]
    by_cases fresh : Fresh key (absorbAll key l gs) g
    · have first : Fresh key l g := by
        intro b hb
        apply lookup_none.mpr
        intro c hc
        exact lookup_none.mp (fresh b hb) c (mem_absorbAll_of_mem hc)
      rw [absorb_fresh fresh, mem_joinAll, ih peace']
      constructor
      · rintro ((old | ⟨h, hh, joins⟩) | ⟨-, new⟩)
        · exact Or.inl old
        · exact Or.inr ⟨h, List.mem_append_left _ hh, joins⟩
        · exact Or.inr ⟨g, by simp, first, new⟩
      · rintro (old | ⟨h, hh, joins, new⟩)
        · exact Or.inl (Or.inl old)
        · rcases List.mem_append.mp hh with hh | hh
          · exact Or.inl (Or.inr ⟨h, hh, joins, new⟩)
          · obtain rfl := List.mem_singleton.mp hh
            exact Or.inr ⟨fresh a (lookup_some new).1, new⟩
    · rw [absorb_known fresh, ih peace']
      constructor
      · rintro (old | ⟨h, hh, joins⟩)
        · exact Or.inl old
        · exact Or.inr ⟨h, List.mem_append_left _ hh, joins⟩
      · rintro (old | ⟨h, hh, joins, new⟩)
        · exact Or.inl old
        · rcases List.mem_append.mp hh with hh | hh
          · exact Or.inr ⟨h, hh, joins, new⟩
          · -- The last group is turned away, so an equal one has joined before it.
            obtain rfl := List.mem_singleton.mp hh
            obtain ⟨b, hb, taken⟩ : ∃ b ∈ h, lookup key (key b) (absorbAll key l gs) ≠ none := by
              simpa [Fresh] using fresh
            obtain ⟨c, found⟩ := Option.ne_none_iff_exists'.mp taken
            obtain ⟨hc, same⟩ := lookup_some found
            rcases (ih peace').mp hc with old | ⟨h', hh', joins', new'⟩
            · exact absurd same (lookup_none.mp (joins b hb) c old)
            · have equal : h' = h := peace h' (List.mem_append_left _ hh') h (List.mem_append_right gs hh)
                joins' joins c
                (lookup_some new').1 b hb same
              subst equal
              exact Or.inr ⟨h', hh', joins, new⟩

/-- A group that comes first joins if it could, and what has joined stays. -/
theorem mem_absorbAll_first {l g : List α} {gs : List (List α)} (fresh : Fresh key l g) {k : κ} {a : α}
    (found : lookup key k g = some a) : a ∈ absorbAll key l (g :: gs) := by
  obtain ⟨ha, rfl⟩ := lookup_some found
  apply mem_absorbAll_of_mem (l := absorb key l g)
  rw [absorb_fresh fresh]
  exact mem_joinAll.mpr (Or.inr ⟨fresh a ha, found⟩)

/-- **Order independence.** Groups that have an element in common only if they are equal
leave the same elements in every order exactly when they do not compete. -/
theorem absorbAll_perm_iff {l : List α} {gs : List (List α)} (distinct : Distinct key l)
    (own : ∀ g ∈ gs, ∀ g' ∈ gs, ∀ a ∈ g, a ∈ g' → g = g') :
    (∀ first second, first.Perm gs → second.Perm gs →
      ∀ a, a ∈ absorbAll key l first ↔ a ∈ absorbAll key l second) ↔ Peaceful key l gs := by
  constructor
  · intro same g hg g' hg' fresh fresh' a ha b hb clash
    have front : ∀ h ∈ gs, ∃ rest, (h :: rest).Perm gs := by
      intro h hh
      obtain ⟨s, t, rfl⟩ := List.append_of_mem hh
      exact ⟨s ++ t, List.perm_middle.symm⟩
    obtain ⟨rest, perm⟩ := front g hg
    obtain ⟨rest', perm'⟩ := front g' hg'
    obtain ⟨x, found⟩ : ∃ x, lookup key (key a) g = some x := lookup_isSome ha
    obtain ⟨y, found'⟩ : ∃ y, lookup key (key b) g' = some y := lookup_isSome hb
    have inFirst : x ∈ absorbAll key l (g :: rest) := mem_absorbAll_first fresh found
    have inSecond : y ∈ absorbAll key l (g' :: rest') := mem_absorbAll_first fresh' found'
    have both : x = y := by
      apply distinct.absorbAll.eq ((same _ _ perm perm' x).mp inFirst) inSecond
      rw [(lookup_some found).2, (lookup_some found').2, clash]
    subst both
    exact own g hg g' hg' x (lookup_some found).1 (lookup_some found').1
  · intro peace first second perm perm' a
    have peaceful : ∀ order : List (List α), order.Perm gs → Peaceful key l order := fun order h g hg g' hg' =>
      peace g (h.subset hg) g' (h.subset hg')
    rw [mem_absorbAll (peaceful first perm), mem_absorbAll (peaceful second perm')]
    have members : ∀ g, g ∈ first ↔ g ∈ second := fun g => by rw [perm.mem_iff, perm'.mem_iff]
    simp only [members]

end Rkvc.Lib.Keyed
