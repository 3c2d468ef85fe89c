import Rkvc.Mlvc.Qppatch

/-!
# Patches that the tool makes

`qppatch.encode` writes the ranges of the bytes that differ, runs that are close to each other
as one. They cover every such byte (`diffRanges_spec`), and the applier turns the base into the
target with them (`encode_applies`).
-/

namespace Rkvc.Mlvc
set_option autoImplicit false
open Lib PyQppatch

/-! ## The ranges -/

section Ranges

variable {base target : List UInt8} {pairs : List (UInt8 × UInt8)} {gap : Int} {ranges runs : List (Nat × Nat)}

/-- A byte of a range. -/
def Holds (r : Nat × Nat) (i : Nat) : Prop := r.1 ≤ i ∧ i < r.1 + r.2

/-- Ranges that are not empty, ascend, are more than `gap` apart and cover what differs. -/
structure Spans (gap : Int) (base target : List UInt8) (ranges : List (Nat × Nat)) : Prop where
  pos : ∀ r ∈ ranges, 0 < r.2
  inside : Inside base.length ranges
  apart : ranges.Pairwise fun r r' => ((r.1 + r.2 : Nat) : Int) + gap < r'.1
  cover : ∀ i, base[i]? ≠ target[i]? → ∃ r ∈ ranges, Holds r i

theorem leading_le : leading pairs ≤ pairs.length := by
  induction pairs with
  | nil => exact Nat.le_refl 0
  | cons pair pairs ih =>
    obtain ⟨b, t⟩ := pair
    rw [leading, List.length_cons]
    split
    · exact Nat.succ_le_succ ih
    · exact Nat.zero_le _

/-- What is known of the runs behind an index. -/
structure RunsFrom (i n : Nat) (pairs : List (UInt8 × UInt8)) (runs : List (Nat × Nat)) : Prop where
  pos : ∀ r ∈ runs, 0 < r.2
  within : ∀ r ∈ runs, i ≤ r.1 ∧ r.1 + r.2 ≤ n
  ascending : runs.Pairwise fun r r' => r.1 + r.2 ≤ r'.1
  cover : ∀ k b t, pairs[k]? = some (b, t) → b ≠ t → ∃ r ∈ runs, Holds r (i + k)

theorem rawRuns_spec {fuel i : Nat} (enough : pairs.length ≤ fuel) :
    RunsFrom i (i + pairs.length) pairs (rawRuns fuel i pairs) := by
  induction fuel generalizing i pairs with
  | zero =>
    obtain rfl := List.length_eq_zero_iff.mp (Nat.le_zero.mp enough)
    constructor
    · intro r listed
      exact absurd listed List.not_mem_nil
    · intro r listed
      exact absurd listed List.not_mem_nil
    · exact List.Pairwise.nil
    · intro k b t there
      cases there
  | succ fuel ih =>
    cases pairs with
    | nil =>
      constructor
      · intro r listed
        exact absurd listed List.not_mem_nil
      · intro r listed
        exact absurd listed List.not_mem_nil
      · exact List.Pairwise.nil
      · intro k b t there
        cases there
    | cons pair pairs =>
      obtain ⟨b, t⟩ := pair
      rw [List.length_cons] at enough ⊢
      rw [rawRuns]
      split
      · have most := @leading_le pairs
        have len : (pairs.drop (leading pairs)).length = pairs.length - leading pairs := List.length_drop
        have rest := @ih (pairs.drop (leading pairs)) (i + (leading pairs + 1)) (by omega)
        constructor
        · intro r listed
          rcases List.mem_cons.mp listed with rfl | listed
          · exact Nat.succ_pos _
          · exact rest.pos r listed
        · intro r listed
          rcases List.mem_cons.mp listed with rfl | listed
          · dsimp only
            omega
          · have := rest.within r listed
            omega
        · rw [List.pairwise_cons]
          exact ⟨fun r listed => (rest.within r listed).1, rest.ascending⟩
        · intro k b' t' there differ
          by_cases first : k < leading pairs + 1
          · refine ⟨_, List.mem_cons_self, ?_⟩
            constructor
            · exact Nat.le_add_right i k
            · dsimp only
              omega
          · have at_ : (pairs.drop (leading pairs))[k - (leading pairs + 1)]? = some (b', t') := by
              rw [List.getElem?_drop, ← there, show k = (leading pairs + (k - (leading pairs + 1))) + 1 by omega,
                List.getElem?_cons_succ]
              congr 1
              omega
            obtain ⟨r, listed, held⟩ := rest.cover _ b' t' at_ differ
            refine ⟨r, List.mem_cons_of_mem _ listed, ?_⟩
            rwa [show i + (leading pairs + 1) + (k - (leading pairs + 1)) = i + k by omega] at held
      · rename_i same
        have rest := @ih pairs (i + 1) (by omega)
        constructor
        · exact rest.pos
        · intro r listed
          have := rest.within r listed
          omega
        · exact rest.ascending
        · intro k b' t' there differ
          cases k with
          | zero =>
            rw [List.getElem?_cons_zero] at there
            cases there
            exact absurd differ same
          | succ k =>
            rw [List.getElem?_cons_succ] at there
            obtain ⟨r, listed, held⟩ := rest.cover k b' t' there differ
            refine ⟨r, listed, ?_⟩
            rwa [show i + 1 + k = i + (k + 1) by omega] at held

/-- Ranges made of runs: each starts where a run starts, ends where one ends, and no run is lost. -/
structure Joins (gap : Int) (first : Nat) (runs ranges : List (Nat × Nat)) : Prop where
  pos : ∀ r ∈ ranges, 0 < r.2
  behind : ∀ r ∈ ranges, first ≤ r.1
  ends : ∀ r ∈ ranges, ∃ run ∈ runs, r.1 + r.2 = run.1 + run.2
  apart : ranges.Pairwise fun r r' => ((r.1 + r.2 : Nat) : Int) + gap < r'.1
  keep : ∀ run ∈ runs, ∃ r ∈ ranges, r.1 ≤ run.1 ∧ run.1 + run.2 ≤ r.1 + r.2

theorem coalesce_spec {last : Nat × Nat} (pos : ∀ r ∈ last :: runs, 0 < r.2)
    (ascending : (last :: runs).Pairwise fun r r' => r.1 + r.2 ≤ r'.1) :
    Joins gap last.1 (last :: runs) (coalesce gap last runs) := by
  induction runs generalizing last with
  | nil =>
    rw [coalesce]
    constructor
    · exact pos
    · intro r listed
      rw [List.mem_singleton.mp listed]
    · intro r listed
      exact ⟨r, listed, rfl⟩
    · exact List.pairwise_singleton _ _
    · intro run listed
      exact ⟨run, listed, Nat.le_refl _, Nat.le_refl _⟩
  | cons run runs ih =>
    obtain ⟨off, ln⟩ := run
    rw [List.pairwise_cons, List.pairwise_cons] at ascending
    obtain ⟨before, here, later⟩ := ascending
    have first := before (off, ln) List.mem_cons_self
    have here_pos := pos (off, ln) (List.mem_cons_of_mem _ List.mem_cons_self)
    dsimp only at first here_pos
    rw [coalesce]
    split
    · have joined : Joins gap last.1 ((last.1, off + ln - last.1) :: runs)
          (coalesce gap (last.1, off + ln - last.1) runs) := by
        refine @ih (last.1, off + ln - last.1) ?_ ?_
        · intro r listed
          rcases List.mem_cons.mp listed with rfl | listed
          · dsimp only
            omega
          · exact pos r (List.mem_cons_of_mem _ (List.mem_cons_of_mem _ listed))
        · rw [List.pairwise_cons]
          refine ⟨fun r listed => ?_, later⟩
          have := here r listed
          dsimp only at this ⊢
          omega
      constructor
      · exact joined.pos
      · exact joined.behind
      · intro r listed
        obtain ⟨run, of, same⟩ := joined.ends r listed
        rcases List.mem_cons.mp of with rfl | of
        · refine ⟨(off, ln), List.mem_cons_of_mem _ List.mem_cons_self, ?_⟩
          dsimp only at same ⊢
          omega
        · exact ⟨run, List.mem_cons_of_mem _ (List.mem_cons_of_mem _ of), same⟩
      · exact joined.apart
      · intro run of
        obtain ⟨r, listed, starts, stops⟩ := joined.keep _ List.mem_cons_self
        dsimp only at starts stops
        rcases List.mem_cons.mp of with rfl | of
        · exact ⟨r, listed, by omega, by omega⟩
        · rcases List.mem_cons.mp of with rfl | of
          · exact ⟨r, listed, by dsimp only; omega, by dsimp only; omega⟩
          · exact joined.keep run (List.mem_cons_of_mem _ of)
    · rename_i far
      have joined : Joins gap off ((off, ln) :: runs) (coalesce gap (off, ln) runs) := by
        refine @ih (off, ln) ?_ ?_
        · intro r listed
          exact pos r (List.mem_cons_of_mem _ listed)
        · rw [List.pairwise_cons]
          exact ⟨here, later⟩
      constructor
      · intro r listed
        rcases List.mem_cons.mp listed with rfl | listed
        · exact pos r List.mem_cons_self
        · exact joined.pos r listed
      · intro r listed
        rcases List.mem_cons.mp listed with rfl | listed
        · exact Nat.le_refl _
        · have := joined.behind r listed
          omega
      · intro r listed
        rcases List.mem_cons.mp listed with rfl | listed
        · exact ⟨r, List.mem_cons_self, rfl⟩
        · obtain ⟨run, of, same⟩ := joined.ends r listed
          exact ⟨run, List.mem_cons_of_mem _ of, same⟩
      · rw [List.pairwise_cons]
        refine ⟨fun r listed => ?_, joined.apart⟩
        have := joined.behind r listed
        omega
      · intro run of
        rcases List.mem_cons.mp of with rfl | of
        · exact ⟨run, List.mem_cons_self, Nat.le_refl _, Nat.le_refl _⟩
        · obtain ⟨r, listed, bounds⟩ := joined.keep run of
          exact ⟨r, List.mem_cons_of_mem _ listed, bounds⟩

theorem zip_differ (same : base.length = target.length) {i : Nat} (differ : base[i]? ≠ target[i]?) :
    ∃ b t, (base.zip target)[i]? = some (b, t) ∧ b ≠ t := by
  by_cases below : i < base.length
  · have below' : i < target.length := same ▸ below
    refine ⟨base[i], target[i], ?_, ?_⟩
    · rw [List.getElem?_zip_eq_some]
      exact ⟨List.getElem?_eq_getElem below, List.getElem?_eq_getElem below'⟩
    · intro equal
      rw [List.getElem?_eq_getElem below, List.getElem?_eq_getElem below', equal] at differ
      exact differ rfl
  · rw [List.getElem?_eq_none (Nat.not_lt.mp below), List.getElem?_eq_none (by omega)] at differ
    exact absurd rfl differ

/-- **The ranges of a diff.** -/
theorem diffRanges_spec (gap : Int) (same : base.length = target.length) (small : base.length < 2 ^ 32) :
    ∃ ranges, diffRanges base target gap = .ok ranges ∧ Spans gap base target ranges := by
  have len : (base.zip target).length = base.length := by
    rw [List.length_zip, ← same, Nat.min_self]
  have found := @rawRuns_spec (base.zip target) base.length 0 len.le
  rw [Nat.zero_add, len] at found
  rw [diffRanges, if_neg (not_not.mpr same), if_neg (by omega)]
  cases raw : rawRuns base.length 0 (base.zip target) with
  | nil =>
    rw [raw] at found
    refine ⟨[], rfl, ?_⟩
    constructor
    · intro r listed
      exact absurd listed List.not_mem_nil
    · intro r listed
      exact absurd listed List.not_mem_nil
    · exact List.Pairwise.nil
    · intro i differ
      obtain ⟨b, t, there, differ⟩ := zip_differ same differ
      obtain ⟨r, listed, -⟩ := found.cover i b t there differ
      exact absurd listed List.not_mem_nil
  | cons first runs =>
    rw [raw] at found
    have joined := @coalesce_spec gap runs first found.pos found.ascending
    refine ⟨_, rfl, ?_⟩
    constructor
    · exact joined.pos
    · intro r listed
      obtain ⟨run, of, ends⟩ := joined.ends r listed
      have := (found.within run of).2
      omega
    · exact joined.apart
    · intro i differ
      obtain ⟨b, t, there, differ⟩ := zip_differ same differ
      obtain ⟨run, of, held⟩ := found.cover i b t there differ
      obtain ⟨r, listed, starts, stops⟩ := joined.keep run of
      rw [Nat.zero_add, Holds] at held
      refine ⟨r, listed, ?_⟩
      constructor
      · omega
      · omega

end Ranges

/-! ## The blob -/

section Blob

variable {base target out : List UInt8} {qp gap : Int} {ranges : List (Nat × Nat)} {n : Nat}

theorem pack_ok {bytes v : Nat} (small : v < 256 ^ bytes) : pack bytes (v : Int) = .ok (leBytes bytes v) := by
  rw [pack, Int.toNat_natCast, if_pos ⟨Int.natCast_nonneg v, small⟩]

theorem word_lt {v : Nat} (small : v < 2 ^ 32) : v < 256 ^ 4 := by
  have same : 256 ^ 4 = 2 ^ 32 := by norm_num
  rwa [same]

theorem packAll_cons {bytes v : Nat} {fields : List (Nat × Int)} {others : List UInt8} (small : v < 256 ^ bytes)
    (packed : packAll fields = .ok others) : packAll ((bytes, (v : Int)) :: fields) = .ok (leBytes bytes v ++ others) := by
  rw [packAll, pack_ok small, packed]

/-- The bytes of one entry of the range table. -/
def entryBytes (r : Nat × Nat) : List UInt8 := leBytes 4 r.1 ++ leBytes 4 r.2

theorem entryBytes_length (r : Nat × Nat) : (entryBytes r).length = 8 := by
  rw [entryBytes, List.length_append, leBytes_length, leBytes_length]

theorem entries_length (ranges : List (Nat × Nat)) : (ranges.flatMap entryBytes).length = ranges.length * 8 := by
  induction ranges with
  | nil => rfl
  | cons r ranges ih =>
    rw [List.flatMap_cons, List.length_append, entryBytes_length, ih, List.length_cons]
    omega

theorem packAll_ranges (small : ∀ r ∈ ranges, r.1 < 2 ^ 32 ∧ r.2 < 2 ^ 32) :
    packAll (rangeFields ranges) = .ok (ranges.flatMap entryBytes) := by
  induction ranges with
  | nil => rfl
  | cons r ranges ih =>
    obtain ⟨lo, hi⟩ := small r List.mem_cons_self
    have rest := ih fun r listed => small r (List.mem_cons_of_mem _ listed)
    rw [rangeFields, List.flatMap_cons, List.flatMap_cons, entryBytes, List.append_assoc]
    exact packAll_cons (word_lt lo) (packAll_cons (word_lt hi) rest)

/-- A word that has been written where it is read. -/
theorem rdU32_at {blob before behind : List UInt8} {off v : Nat} (made : blob = before ++ leBytes 4 v ++ behind)
    (at_ : before.length = off) (small : v < 2 ^ 32) : rdU32 blob off = v := by
  rw [rdU32, made, List.append_assoc, ← at_, List.drop_left, List.take_append_of_le_length (leBytes_length 4 v).ge,
    List.take_of_length_le (leBytes_length 4 v).le]
  exact leVal_leBytes small

theorem rangesOf_entries {before : List UInt8} (behind : List UInt8) (at_ : before.length = kQppHeaderSize)
    (small : ∀ r ∈ ranges, r.1 < 2 ^ 32 ∧ r.2 < 2 ^ 32) :
    rangesOf (before ++ ranges.flatMap entryBytes ++ behind) ranges.length = ranges := by
  apply List.ext_getElem
  · exact rangesOf_length _ _
  · intro i _ below
    have parts : ranges = ranges.take i ++ ranges[i] :: ranges.drop (i + 1) := by
      rw [List.getElem_cons_drop, List.take_append_drop]
    have taken : (ranges.take i).length = i := by
      rw [List.length_take]
      omega
    obtain ⟨first, second⟩ := small ranges[i] (List.getElem_mem below)
    have split_ : before ++ ranges.flatMap entryBytes ++ behind =
        before ++ (ranges.take i).flatMap entryBytes ++ leBytes 4 ranges[i].1 ++
          (leBytes 4 ranges[i].2 ++ ((ranges.drop (i + 1)).flatMap entryBytes ++ behind)) := by
      conv => lhs; rw [parts]
      simp only [List.flatMap_append, List.flatMap_cons, entryBytes, List.append_assoc]
    have len : (before ++ (ranges.take i).flatMap entryBytes).length = kQppHeaderSize + i * kRangeSize := by
      rw [List.length_append, at_, entries_length, taken, kRangeSize]
    have off := rdU32_at split_ len first
    rw [← List.append_assoc (leBytes 4 ranges[i].1 |> (before ++ (ranges.take i).flatMap entryBytes ++ ·))] at split_
    have len' : (before ++ (ranges.take i).flatMap entryBytes ++ leBytes 4 ranges[i].1).length =
        kQppHeaderSize + i * kRangeSize + 4 := by
      rw [List.length_append, len, leBytes_length]
    have ln := rdU32_at split_ len' second
    simp only [rangesOf, List.getElem_map, List.getElem_range, off, ln]

/-! ### The copy -/

theorem overlay_getElem? {off i : Nat} {chunk : List UInt8} (room : off + chunk.length ≤ out.length) :
    (overlay out off chunk)[i]? =
      if i < off then out[i]? else if i < off + chunk.length then chunk[i - off]? else out[i]? := by
  have len : (out.take off).length = off := by
    rw [List.length_take]
    omega
  rw [overlay, List.append_assoc]
  split
  · rename_i before
    rw [List.getElem?_append_left (by omega), List.getElem?_take_of_lt before]
  · rename_i behind
    rw [List.getElem?_append_right (by omega), len]
    split
    · rw [List.getElem?_append_left (by omega)]
    · rw [List.getElem?_append_right (by omega), List.getElem?_drop]
      congr 1
      omega

theorem slice_getElem? {r : Nat × Nat} {i : Nat} (held : Holds r i) : (slice target r)[i - r.1]? = target[i]? := by
  rw [Holds] at held
  rw [slice, List.getElem?_take_of_lt (by omega), List.getElem?_drop]
  congr 1
  omega

theorem slice_length {r : Nat × Nat} (inside : r.1 + r.2 ≤ target.length) : (slice target r).length = r.2 := by
  rw [slice, List.length_take, List.length_drop]
  omega

/-- The copy is that of the slices, one behind the other. -/
theorem copyLoop_slices (before out : List UInt8) (inside : Inside target.length ranges) :
    copyLoop (before ++ ranges.flatMap (slice target)) ranges before.length out =
      ranges.foldl (fun out r => overlay out r.1 (slice target r)) out := by
  induction ranges generalizing before out with
  | nil => rfl
  | cons r ranges ih =>
    obtain ⟨off, len⟩ := r
    have here := inside (off, len) List.mem_cons_self
    have sliced := slice_length here
    have rest : Inside target.length ranges := fun r listed => inside r (List.mem_cons_of_mem _ listed)
    have taken : ((before ++ ((off, len) :: ranges).flatMap (slice target)).drop before.length).take len =
        slice target (off, len) := by
      rw [List.drop_left, List.flatMap_cons, List.take_append_of_le_length sliced.ge, List.take_of_length_le sliced.le]
    have next := ih (before ++ slice target (off, len))
      (if len ≠ 0 then overlay out off (slice target (off, len)) else out) rest
    rw [List.length_append, sliced, List.append_assoc] at next
    rw [copyLoop, taken, List.flatMap_cons, next, List.foldl_cons]
    congr 1
    split
    · rfl
    · rename_i empty
      rw [not_not.mp empty] at sliced ⊢
      rw [List.eq_nil_of_length_eq_zero sliced, overlay_nil]

/-- Slices that cover what differs give the target. -/
theorem slices_target (len : out.length = target.length) (inside : Inside target.length ranges)
    (cover : ∀ i, out[i]? ≠ target[i]? → ∃ r ∈ ranges, Holds r i) :
    ranges.foldl (fun out r => overlay out r.1 (slice target r)) out = target := by
  induction ranges generalizing out with
  | nil =>
    apply List.ext_getElem?
    intro i
    by_contra differ
    obtain ⟨r, listed, -⟩ := cover i differ
    exact absurd listed List.not_mem_nil
  | cons r ranges ih =>
    have here := inside r List.mem_cons_self
    have sliced := slice_length here
    rw [List.foldl_cons]
    refine ih ?_ ?_ ?_
    · rw [overlay_length (by omega), len]
    · exact fun r listed => inside r (List.mem_cons_of_mem _ listed)
    · intro i differ
      rw [overlay_getElem? (by omega), sliced] at differ
      by_cases held : Holds r i
      · rw [if_neg (Nat.not_lt.mpr held.1), if_pos held.2, slice_getElem? held] at differ
        exact absurd rfl differ
      · have apart : (if i < r.1 then out[i]? else
            if i < r.1 + r.2 then (slice target r)[i - r.1]? else out[i]?) = out[i]? := by
          split
          · rfl
          · rename_i behind
            rw [if_neg fun below => held ⟨Nat.not_lt.mp behind, below⟩]
        rw [apart] at differ
        obtain ⟨r', listed, held'⟩ := cover i differ
        rcases List.mem_cons.mp listed with rfl | listed
        · exact absurd held' held
        · exact ⟨r', listed, held'⟩

/-! ### The header -/

/-- The header of a patch. -/
def headerBytes (baseSize qp numRanges baseCrc payloadCrc gap : Nat) : List UInt8 :=
  qppMagic ++ leBytes 4 1 ++ leBytes 8 baseSize ++ leBytes 4 qp ++ leBytes 4 numRanges ++ leBytes 4 0 ++
    leBytes 4 baseCrc ++ leBytes 4 payloadCrc ++ leBytes 4 gap ++ List.replicate 8 0

/-- The bytes of the ranges. -/
def payloadBytes (target : List UInt8) (ranges : List (Nat × Nat)) : List UInt8 := ranges.flatMap (slice target)

def blobBytes (base target : List UInt8) (qp gap : Nat) (ranges : List (Nat × Nat)) : List UInt8 :=
  headerBytes base.length qp ranges.length (PyQppatch.crc32 base) (PyQppatch.crc32 (payloadBytes target ranges)) gap ++
    ranges.flatMap entryBytes ++ payloadBytes target ranges

theorem headerBytes_length (baseSize qp numRanges baseCrc payloadCrc gap : Nat) :
    (headerBytes baseSize qp numRanges baseCrc payloadCrc gap).length = kQppHeaderSize := by
  simp only [headerBytes, List.length_append, leBytes_length, List.length_replicate]
  rfl

/-- What is read of a header. -/
structure HeaderRead (blob : List UInt8) (baseSize qp numRanges baseCrc payloadCrc : Nat) : Prop where
  magic : blob.take 4 = qppMagic
  version : rdU32 blob 4 = 1
  baseSize : rdU64 blob 8 = baseSize
  qp : rdU32 blob 16 = qp
  numRanges : rdU32 blob 20 = numRanges
  flags : rdU32 blob 24 = 0
  baseCrc : rdU32 blob 28 = baseCrc
  payloadCrc : rdU32 blob 32 = payloadCrc

theorem header_read {baseSize qp numRanges baseCrc payloadCrc : Nat} (gap : Nat) (behind : List UInt8)
    (size : baseSize < 2 ^ 32) (qpSmall : qp < 2 ^ 32) (count : numRanges < 2 ^ 32) (baseSmall : baseCrc < 2 ^ 32)
    (payloadSmall : payloadCrc < 2 ^ 32) :
    HeaderRead (headerBytes baseSize qp numRanges baseCrc payloadCrc gap ++ behind) baseSize qp numRanges baseCrc
      payloadCrc := by
  have total : 16 ≤ (headerBytes baseSize qp numRanges baseCrc payloadCrc gap ++ behind).length := by
    rw [List.length_append, headerBytes_length, kQppHeaderSize]
    omega
  have word : ∀ {v : Nat}, v < 2 ^ 32 → leVal (leBytes 4 v) = v := fun small => leVal_leBytes (word_lt small)
  constructor
  · rfl
  · exact word (v := 1) (by decide)
  · rw [rdU64_eq (by omega)]
    exact leVal_leBytes (k := 8) (size.trans (by decide))
  · exact word qpSmall
  · exact word count
  · exact word (v := 0) (by decide)
  · exact word baseSmall
  · exact word payloadSmall

/-! ### The round trip -/

/-- Ranges that are apart take no more bytes than there are. -/
theorem Spans.length_le (spans : Spans gap base target ranges) (pos : 0 ≤ gap) : ranges.length ≤ base.length := by
  have behind : ∀ (ranges : List (Nat × Nat)) (lo : Nat), (∀ r ∈ ranges, 0 < r.2) → Inside base.length ranges →
      (ranges.Pairwise fun r r' => ((r.1 + r.2 : Nat) : Int) + gap < r'.1) → (∀ r ∈ ranges, lo ≤ r.1) →
      lo ≤ base.length → lo + ranges.length ≤ base.length := by
    intro ranges
    induction ranges with
    | nil =>
      intro lo _ _ _ _ room
      exact room
    | cons r ranges ih =>
      intro lo some inside apart above _
      rw [List.pairwise_cons] at apart
      have here := some r List.mem_cons_self
      have starts := above r List.mem_cons_self
      have stops := inside r List.mem_cons_self
      have rest := ih (r.1 + r.2) (fun r listed => some r (List.mem_cons_of_mem _ listed))
        (fun r listed => inside r (List.mem_cons_of_mem _ listed)) apart.2
        (fun r' listed => by have := apart.1 r' listed; omega) stops
      rw [List.length_cons]
      omega
  have all := behind ranges 0 spans.pos spans.inside spans.apart (fun r _ => Nat.zero_le _) (Nat.zero_le _)
  omega

theorem packAll_header (payload : List UInt8) {qp gap n : Nat} (size : base.length < 2 ^ 32) (qpSmall : qp < 2 ^ 32)
    (count : n < 2 ^ 32) (gapSmall : gap < 2 ^ 32) :
    packAll (headerFields base payload qp gap n) =
      .ok (leBytes 4 1 ++ (leBytes 8 base.length ++ (leBytes 4 qp ++ (leBytes 4 n ++ (leBytes 4 0 ++
        (leBytes 4 (PyQppatch.crc32 base) ++ (leBytes 4 (PyQppatch.crc32 payload) ++ (leBytes 4 gap ++ [])))))))) := by
  have none : packAll [] = .ok [] := rfl
  have payloadSmall := crc32_lt payload
  have baseSmall := crc32_lt base
  rw [headerFields]
  generalize PyQppatch.crc32 payload = payloadCrc at payloadSmall ⊢
  generalize PyQppatch.crc32 base = baseCrc at baseSmall ⊢
  have fields := packAll_cons (word_lt payloadSmall) (packAll_cons (word_lt gapSmall) none)
  have fields := packAll_cons (word_lt baseSmall) fields
  have fields := packAll_cons (word_lt count) (packAll_cons (word_lt (v := 0) (by decide)) fields)
  have fields := packAll_cons (size.trans (show 2 ^ 32 < 256 ^ 8 by decide)) (packAll_cons (word_lt qpSmall) fields)
  have fields := packAll_cons (word_lt (v := 1) (by decide)) fields
  rwa [Nat.cast_zero, Nat.cast_one] at fields

theorem encodeRanges_ok {header body : List UInt8}
    (packed : packAll (headerFields base (payloadBytes target ranges) qp gap ranges.length) = .ok header)
    (listed : packAll (rangeFields ranges) = .ok body) :
    encodeRanges base target qp gap ranges =
      .ok (qppMagic ++ header ++ List.replicate 8 0 ++ body ++ payloadBytes target ranges) := by
  rw [payloadBytes] at packed
  simp only [encodeRanges, packed, listed, payloadBytes]

theorem encode_found {qp gap : Nat} (small : base.length < 2 ^ 32) (qpSmall : qp < 2 ^ 32) (gapSmall : gap < 2 ^ 32)
    (found : diffRanges base target gap = .ok ranges) (spans : Spans gap base target ranges) :
    encode base target qp gap = .ok (blobBytes base target qp gap ranges) := by
  have count := spans.length_le (Int.natCast_nonneg gap)
  have words : ∀ r ∈ ranges, r.1 < 2 ^ 32 ∧ r.2 < 2 ^ 32 := by
    intro r listed
    have := spans.inside r listed
    omega
  have header := packAll_header (payloadBytes target ranges) small qpSmall
    (show ranges.length < 2 ^ 32 by omega) gapSmall
  have body := packAll_ranges words
  rw [encode, if_neg (by omega), found]
  exact encodeRanges_ok header body

/-- The base behind a patch that the tool has made. -/
theorem blob_applies {qp gap : Nat} (same : base.length = target.length) (some : base ≠ [])
    (small : base.length < 2 ^ 32) (qpSmall : qp < 2 ^ 31) (spans : Spans gap base target ranges)
    (blobSmall : (blobBytes base target qp gap ranges).length < 2 ^ 32) :
    applyQppatch base (blobBytes base target qp gap ranges) qp = (target, .ok ()) := by
  have count := spans.length_le (Int.natCast_nonneg gap)
  have words : ∀ r ∈ ranges, r.1 < 2 ^ 32 ∧ r.2 < 2 ^ 32 := by
    intro r listed
    have := spans.inside r listed
    omega
  have inside : Inside target.length ranges := same ▸ spans.inside
  have at_ := headerBytes_length base.length qp ranges.length (PyQppatch.crc32 base)
    (PyQppatch.crc32 (payloadBytes target ranges)) gap
  have read := header_read gap (ranges.flatMap entryBytes ++ payloadBytes target ranges) small
    (show qp < 2 ^ 32 by omega) (show ranges.length < 2 ^ 32 by omega) (crc32_lt base)
    (crc32_lt (payloadBytes target ranges))
  have made : blobBytes base target qp gap ranges = _ := List.append_assoc _ _ _
  rw [← made] at read
  have entries := rangesOf_entries (payloadBytes target ranges) at_ words
  rw [← blobBytes] at entries
  have payload : payloadOf (blobBytes base target qp gap ranges) ranges.length = payloadBytes target ranges := by
    rw [payloadOf, blobBytes, kRangeSize, ← at_, ← entries_length, ← List.length_append, List.drop_left]
  have sized : rangesSize ranges = (payloadBytes target ranges).length := by
    clear made at_ read entries payload spans words blobSmall count
    induction ranges with
    | nil => rfl
    | cons r ranges ih =>
      rw [rangesSize_cons, payloadBytes, List.flatMap_cons, List.length_append, slice_length (inside r List.mem_cons_self),
        ← payloadBytes, ih fun r listed => inside r (List.mem_cons_of_mem _ listed)]
  have takes : Patches base (blobBytes base target qp gap ranges) (Option.some qp) := by
    constructor
    · rw [blobBytes, List.length_append, List.length_append, at_]
      omega
    · exact read.magic
    · exact read.version
    · exact read.baseSize
    · exact read.flags
    · intro q asked
      cases asked
      exact read.qp
    · rw [read.baseCrc, crc32_eq]
    · rw [read.numRanges, blobBytes, List.length_append, List.length_append, at_, entries_length, kRangeSize]
      omega
    · rw [read.numRanges, entries]
      exact spans.inside
    · rw [read.numRanges, entries, payload]
      exact sized
    · rw [read.numRanges, payload, read.payloadCrc, crc32_eq]
  have range : ∀ q, Option.some qp = Option.some q → q < 2 ^ 31 := by
    intro q asked
    cases asked
    exact qpSmall
  have applied := applyQppatch_ok some blobSmall range takes
  have sliced := copyLoop_slices [] base inside
  rw [List.nil_append, List.length_nil, slices_target same inside spans.cover] at sliced
  rw [patched, read.numRanges, entries, payload, payloadBytes, sliced] at applied
  exact applied

/-- **A patch turns its base into its target.** -/
theorem encode_applies (same : base.length = target.length) (some : base ≠ []) (small : base.length < 2 ^ 32)
    (qpRange : 0 ≤ qp ∧ qp < 2 ^ 31) (gapRange : 0 ≤ gap ∧ gap < 2 ^ 32) :
    ∃ ranges blob, diffRanges base target gap = .ok ranges ∧ Spans gap base target ranges ∧
      encode base target qp gap = .ok blob ∧
      (blob.length < 2 ^ 32 → applyQppatch base blob qp = (target, .ok ())) := by
  obtain ⟨ranges, found, spans⟩ := diffRanges_spec gap same small
  lift qp to Nat using qpRange.1
  lift gap to Nat using gapRange.1
  refine ⟨ranges, blobBytes base target qp gap ranges, found, spans, ?_, ?_⟩
  · exact encode_found small (by omega) (by omega) found spans
  · exact blob_applies same some small (by omega) spans

end Blob

/-- A patch of one byte. -/
theorem encode_applies_small : ∃ blob, encode [1, 2, 3] [1, 9, 3] 5 0 = .ok blob ∧
    applyQppatch [1, 2, 3] blob 5 = ([1, 9, 3], .ok ()) := by
  obtain ⟨ranges, blob, -, -, made, applies⟩ := encode_applies
    (show ([1, 2, 3] : List UInt8).length = ([1, 9, 3] : List UInt8).length from rfl) (List.cons_ne_nil 1 [2, 3])
    (by decide) (show (0 : Int) ≤ 5 ∧ (5 : Int) < 2 ^ 31 by decide) (show (0 : Int) ≤ 0 ∧ (0 : Int) < 2 ^ 32 by decide)
  have len : (encode [1, 2, 3] [1, 9, 3] 5 0).toOption.map List.length = some 57 := by decide +kernel
  rw [made] at len
  have len : blob.length = 57 := Option.some.inj len
  refine ⟨blob, made, applies ?_⟩
  rw [len]
  decide

end Rkvc.Mlvc
